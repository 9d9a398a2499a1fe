import Mathlib

/-! Intervals nested in one another, as a forest of first children and next siblings. An
interval goes in where it fits, takes the siblings that it encloses as its children, and is
rejected if it overlaps another one only in part. -/
namespace Pnet.Lib

inductive Forest (B : Type) where
  | nil
  | cons (b : B) (children rest : Forest B)

namespace Forest

variable {B α : Type}

def nodes : Forest B → List B
  | nil => []
  | cons b children rest => b :: (nodes children ++ nodes rest)

/-- `a` is `b` or has it below it. -/
def Above (a b : B) : Forest B → Prop
  | nil => False
  | cons c children rest =>
    (a = c ∧ (b = c ∨ b ∈ children.nodes)) ∨ Above a b children ∨ Above a b rest

variable [LinearOrder α] (start stop : B → α)

/-- The trees from the first one on that end before `x` does, if none overlaps its end. -/
def takeNested (x : B) : Forest B → Option (Forest B × Forest B)
  | nil => some (nil, nil)
  | cons b children rest =>
    if stop x ≤ start b then some (nil, cons b children rest)
    else if stop b ≤ stop x then
      (takeNested x rest).map fun split => (cons b children split.1, split.2)
    else none

def insert (x : B) : Forest B → Option (Forest B)
  | nil => some (cons x nil nil)
  | cons b children rest =>
    if stop x ≤ start b then some (cons x nil (cons b children rest))
    else if stop b ≤ start x then (insert x rest).map (cons b children)
    else if start x ≤ start b ∧ stop b ≤ stop x then
      (takeNested start stop x rest).map fun split => cons x (cons b children split.1) split.2
    else if start b ≤ start x ∧ stop x ≤ stop b then
      (insert x children).map fun children => cons b children rest
    else none

/-- The innermost interval around a point. -/
def innermost (point : α) : Forest B → Option B
  | nil => none
  | cons b children rest =>
    if point < start b then none
    else if stop b ≤ point then innermost point rest
    else some ((innermost point children).getD b)

/-- Siblings follow one another, and children lie in their parents. -/
def Within (lo hi : α) : Forest B → Prop
  | nil => lo ≤ hi
  | cons b children rest => lo ≤ start b ∧ start b ≤ stop b ∧
      Within (start b) (stop b) children ∧ Within (stop b) hi rest

variable {start stop} {lo hi : α} {f left right : Forest B} {x : B}

theorem Within.le (h : f.Within start stop lo hi) : lo ≤ hi := by
  induction f generalizing lo with
  | nil => exact h
  | cons b children rest _ ih =>
    obtain ⟨hlo, hle, _, hrest⟩ := h
    exact (hlo.trans hle).trans (ih hrest)

theorem Within.congr {start' stop' : B → α} (h : f.Within start stop lo hi)
    (hsame : ∀ b ∈ f.nodes, start' b = start b ∧ stop' b = stop b) :
    f.Within start' stop' lo hi := by
  induction f generalizing lo hi with
  | nil => exact h
  | cons b children rest ihc ihr =>
    obtain ⟨hlo, hle, hchildren, hrest⟩ := h
    obtain ⟨hs, he⟩ := hsame b List.mem_cons_self
    unfold Within
    rw [hs, he]
    exact ⟨hlo, hle,
      ihc hchildren fun b' hb' => hsame b' (List.mem_cons_of_mem _ (List.mem_append_left _ hb')),
      ihr hrest fun b' hb' => hsame b' (List.mem_cons_of_mem _ (List.mem_append_right _ hb'))⟩

theorem Within.mono (h : f.Within start stop lo hi) {lo' hi' : α} (hlo : lo' ≤ lo)
    (hhi : hi ≤ hi') : f.Within start stop lo' hi' := by
  induction f generalizing lo lo' with
  | nil => exact (hlo.trans h).trans hhi
  | cons b children rest _ ih =>
    obtain ⟨hstart, hle, hchildren, hrest⟩ := h
    exact ⟨hlo.trans hstart, hle, hchildren, ih hrest le_rfl⟩

theorem Within.mem (h : f.Within start stop lo hi) {b : B} (hb : b ∈ f.nodes) :
    lo ≤ start b ∧ start b ≤ stop b ∧ stop b ≤ hi := by
  induction f generalizing lo hi with
  | nil => cases hb
  | cons c children rest ihc ihr =>
    obtain ⟨hlo, hle, hchildren, hrest⟩ := h
    rcases List.mem_cons.1 hb with rfl | hb
    · exact ⟨hlo, hle, hrest.le⟩
    · rcases List.mem_append.1 hb with hb | hb
      · obtain ⟨hs, hb', he⟩ := ihc hchildren hb
        exact ⟨hlo.trans hs, hb', he.trans hrest.le⟩
      · obtain ⟨hs, hb', he⟩ := ihr hrest hb
        exact ⟨(hlo.trans hle).trans hs, hb', he⟩

/-! ### Inserting -/

theorem nodes_takeNested (h : f.takeNested start stop x = some (left, right)) :
    f.nodes.Perm (left.nodes ++ right.nodes) := by
  induction f generalizing left right with
  | nil =>
    cases h
    rfl
  | cons b children rest _ ih =>
    unfold takeNested at h
    split_ifs at h with hbefore hinside
    · cases h
      exact List.Perm.refl _
    · obtain ⟨⟨left', right'⟩, hsplit, heq⟩ := Option.map_eq_some_iff.1 h
      cases heq
      simp only [nodes, List.cons_append, List.append_assoc]
      exact ((ih hsplit).append_left _).cons _

theorem nodes_insert {f' : Forest B} (h : f.insert start stop x = some f') :
    f'.nodes.Perm (x :: f.nodes) := by
  induction f generalizing f' with
  | nil =>
    cases h
    rfl
  | cons b children rest ihc ihr =>
    unfold insert at h
    split_ifs at h with hbefore hafter hencloses hinside
    · cases h
      exact List.Perm.refl _
    · obtain ⟨rest', hrest, rfl⟩ := Option.map_eq_some_iff.1 h
      simp only [nodes]
      exact (((ihr hrest).append_left _).trans List.perm_middle).cons b |>.trans (.swap ..)
    · obtain ⟨split, hsplit, rfl⟩ := Option.map_eq_some_iff.1 h
      simp only [nodes, List.cons_append, List.append_assoc]
      exact (((nodes_takeNested hsplit).symm.append_left _).cons b).cons x
    · obtain ⟨children', hchildren, rfl⟩ := Option.map_eq_some_iff.1 h
      simp only [nodes]
      exact (((ihc hchildren).append_right _).cons b).trans (.swap ..)

theorem within_takeNested (h : f.Within start stop lo hi) (hlo : lo ≤ stop x) (hhi : stop x ≤ hi)
    (hsplit : f.takeNested start stop x = some (left, right)) :
    left.Within start stop lo (stop x) ∧ right.Within start stop (stop x) hi := by
  induction f generalizing lo left right with
  | nil =>
    cases hsplit
    exact ⟨hlo, hhi⟩
  | cons b children rest _ ih =>
    obtain ⟨hstart, hle, hchildren, hrest⟩ := h
    unfold takeNested at hsplit
    split_ifs at hsplit with hbefore hinside
    · cases hsplit
      exact ⟨hlo, hbefore, hle, hchildren, hrest⟩
    · obtain ⟨⟨left', right'⟩, hsplit', heq⟩ := Option.map_eq_some_iff.1 hsplit
      cases heq
      obtain ⟨hleft, hright⟩ := ih hrest hinside hsplit'
      exact ⟨⟨hstart, hle, hchildren, hleft⟩, hright⟩

theorem within_insert {f' : Forest B} (h : f.Within start stop lo hi) (hlo : lo ≤ start x)
    (hx : start x ≤ stop x) (hhi : stop x ≤ hi) (hinsert : f.insert start stop x = some f') :
    f'.Within start stop lo hi := by
  induction f generalizing lo hi f' with
  | nil =>
    cases hinsert
    exact ⟨hlo, hx, hx, hhi⟩
  | cons b children rest ihc ihr =>
    obtain ⟨hstart, hle, hchildren, hrest⟩ := h
    unfold insert at hinsert
    split_ifs at hinsert with hbefore hafter hencloses hinside
    · cases hinsert
      exact ⟨hlo, hx, hx, hbefore, hle, hchildren, hrest⟩
    · obtain ⟨rest', hrest', rfl⟩ := Option.map_eq_some_iff.1 hinsert
      exact ⟨hstart, hle, hchildren, ihr hrest hafter hhi hrest'⟩
    · obtain ⟨⟨left, right⟩, hsplit, rfl⟩ := Option.map_eq_some_iff.1 hinsert
      obtain ⟨hleft, hright⟩ := within_takeNested hrest hencloses.2 hhi hsplit
      exact ⟨hlo, hx, ⟨hencloses.1, hle, hchildren, hleft⟩, hright⟩
    · obtain ⟨children', hchildren', rfl⟩ := Option.map_eq_some_iff.1 hinsert
      exact ⟨hstart, hle, ihc hchildren hinside.1 hinside.2 hchildren', hrest⟩

/-! ### Searching -/

/-- The point lies in the interval of a node. -/
def Contains (start stop : B → α) (b : B) (point : α) : Prop := start b ≤ point ∧ point < stop b

theorem Within.not_contains (h : f.Within start stop lo hi) {point : α}
    (hpoint : point < lo ∨ hi ≤ point) {b : B} (hb : b ∈ f.nodes) : ¬ Contains start stop b point := by
  rintro ⟨hstart, hstop⟩
  obtain ⟨hlo, _, hhi⟩ := h.mem hb
  cases hpoint with
  | inl hlt => exact absurd ((hlo.trans hstart).trans_lt hlt) (lt_irrefl _)
  | inr hle => exact absurd ((hhi.trans hle).trans_lt hstop) (lt_irrefl _)

theorem innermost_spec (h : f.Within start stop lo hi) (point : α) :
    (∀ b, f.innermost start stop point = some b → b ∈ f.nodes ∧ Contains start stop b point ∧
      ∀ a ∈ f.nodes, Contains start stop a point → f.Above a b) ∧
    (f.innermost start stop point = none → ∀ a ∈ f.nodes, ¬ Contains start stop a point) := by
  induction f generalizing lo hi with
  | nil =>
    exact ⟨fun b hb => absurd hb (by simp [innermost]), fun _ a ha => absurd ha List.not_mem_nil⟩
  | cons c children rest ihc ihr =>
    have hall := h
    obtain ⟨hlo, hle, hchildren, hrest⟩ := h
    unfold innermost
    split_ifs with hbefore hafter
    · refine ⟨fun b hb => absurd hb (by simp), fun _ a ha => ?_⟩
      have hfrom : (cons c children rest).Within start stop (start c) hi :=
        ⟨le_rfl, hle, hchildren, hrest⟩
      exact hfrom.not_contains (.inl hbefore) ha
    · obtain ⟨hsome, hnone⟩ := ihr hrest
      have hout : ∀ a, a = c ∨ a ∈ children.nodes → ¬ Contains start stop a point := by
        rintro a (rfl | ha)
        · exact fun hin => absurd (hafter.trans_lt hin.2) (lt_irrefl _)
        · exact hchildren.not_contains (.inr hafter) ha
      constructor
      · intro b hb
        obtain ⟨hmem, hin, habove⟩ := hsome b hb
        refine ⟨List.mem_cons_of_mem _ (List.mem_append_right _ hmem), hin, fun a ha hina => ?_⟩
        rcases List.mem_cons.1 ha with rfl | ha
        · exact absurd hina (hout a (.inl rfl))
        · rcases List.mem_append.1 ha with ha | ha
          · exact absurd hina (hout a (.inr ha))
          · exact .inr (.inr (habove a ha hina))
      · intro hno a ha
        rcases List.mem_cons.1 ha with rfl | ha
        · exact hout a (.inl rfl)
        · rcases List.mem_append.1 ha with ha | ha
          · exact hout a (.inr ha)
          · exact hnone hno a ha
    · obtain ⟨hsome, hnone⟩ := ihc hchildren
      have hin : Contains start stop c point := ⟨not_lt.1 hbefore, not_le.1 hafter⟩
      refine ⟨fun b hb => ?_, fun hno => absurd hno (by simp)⟩
      have hbelow : b = c ∨ b ∈ children.nodes := by
        cases hfind : children.innermost start stop point with
        | none =>
          rw [hfind] at hb
          exact .inl (Option.some.inj hb).symm
        | some b' =>
          rw [hfind] at hb
          exact .inr (Option.some.inj hb ▸ (hsome b' hfind).1)
      have hinb : Contains start stop b point ∧
          ∀ a ∈ children.nodes, Contains start stop a point → children.Above a b := by
        cases hfind : children.innermost start stop point with
        | none =>
          rw [hfind] at hb
          exact ⟨Option.some.inj hb ▸ hin, fun a ha hina => absurd hina (hnone hfind a ha)⟩
        | some b' =>
          rw [hfind] at hb
          obtain rfl := Option.some.inj hb
          exact (hsome _ hfind).2
      refine ⟨?_, hinb.1, fun a ha hina => ?_⟩
      · cases hbelow with
        | inl heq => exact heq ▸ List.mem_cons_self
        | inr hmem => exact List.mem_cons_of_mem _ (List.mem_append_left _ hmem)
      · rcases List.mem_cons.1 ha with rfl | ha
        · exact .inl ⟨rfl, hbelow⟩
        · rcases List.mem_append.1 ha with ha | ha
          · exact .inr (.inl (hinb.2 a ha hina))
          · exact absurd hina (hrest.not_contains (.inl hin.2) ha)

end Forest

end Pnet.Lib
