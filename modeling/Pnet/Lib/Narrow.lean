import Mathlib.Data.List.Induction

/-! A search for the innermost interval around a point that keeps one current interval and goes on
to each one inside it, also to those that the point is not in. -/
namespace Pnet.Lib.Narrow

variable {α : Type*} (start stop : α → Nat) (point : Nat)

def Inside (inner outer : α) : Prop := start outer ≤ start inner ∧ stop inner ≤ stop outer

def Covers (item : α) : Prop := start item ≤ point ∧ point < stop item

instance (inner outer : α) : Decidable (Inside start stop inner outer) :=
  inferInstanceAs (Decidable (_ ∧ _))

instance (item : α) : Decidable (Covers start stop point item) :=
  inferInstanceAs (Decidable (_ ∧ _))

/-- The item that is found, and the current one. -/
structure State (α : Type*) where
  found : Option α := none
  current : Option α := none

def narrow (state : State α) (item : α) : State α :=
  if ∀ outer ∈ state.current, Inside start stop item outer then
    ⟨if Covers start stop point item then some item else state.found, some item⟩
  else state

/-- The point is not in the item, which is inside all the items before it around the point. -/
def Misleads (before : List α) (item : α) : Prop :=
  ¬ Covers start stop point item ∧
    ∀ outer ∈ before, Covers start stop point outer → Inside start stop item outer

instance (before : List α) (item : α) : Decidable (Misleads start stop point before item) :=
  inferInstanceAs (Decidable (_ ∧ _))

/-- The items up to the first one that misleads, behind those before. -/
def clear (before : List α) : List α → List α
  | [] => before
  | item :: items =>
    if Misleads start stop point before item then before else clear (before ++ [item]) items

structure Innermost (items : List α) (item : α) : Prop where
  mem : item ∈ items
  covers : Covers start stop point item
  inside : ∀ outer ∈ items, Covers start stop point outer → Inside start stop item outer

/-- An innermost item with no other one behind it. -/
structure Latest (items : List α) (item : α) : Prop where
  split : ∃ front rest, items = front ++ item :: rest ∧
    ∀ other ∈ rest, Covers start stop point other → ¬ Inside start stop other item
  innermost : Innermost start stop point items item

/-- The latest item, if there is one around the point. -/
def Gives (items : List α) : Option α → Prop
  | none => ∀ item ∈ items, ¬ Covers start stop point item
  | some item => Latest start stop point items item

/-- Of two items one is inside the other or they have no point in common. -/
def Forest (items : List α) : Prop :=
  ∀ first ∈ items, ∀ second ∈ items, Inside start stop first second ∨
    Inside start stop second first ∨ stop first ≤ start second ∨ stop second ≤ start first

/-- The items so far are clear: what is found is current, and the latest. -/
structure Tracks (before : List α) (state : State α) : Prop where
  current_eq : state.current = state.found
  gives : Gives start stop point before state.found

instance (items : List α) : Decidable (Forest start stop items) :=
  inferInstanceAs (Decidable (∀ first ∈ items, ∀ second ∈ items, _))

variable {start stop point} {items before : List α} {item : α}

theorem Inside.refl (item : α) : Inside start stop item item := ⟨Nat.le_refl _, Nat.le_refl _⟩

theorem Inside.trans {inner middle outer : α} (h : Inside start stop inner middle)
    (h' : Inside start stop middle outer) : Inside start stop inner outer :=
  ⟨Nat.le_trans h'.1 h.1, Nat.le_trans h.2 h'.2⟩

theorem Covers.of_inside {inner outer : α} (h : Covers start stop point inner)
    (hinside : Inside start stop inner outer) : Covers start stop point outer :=
  ⟨Nat.le_trans hinside.1 h.1, Nat.lt_of_lt_of_le h.2 hinside.2⟩

/-- Two items around one point are nested. -/
theorem Forest.nested (h : Forest start stop items) {first second : α} (hfirst : first ∈ items)
    (hsecond : second ∈ items) (hcovers : Covers start stop point first)
    (hcovers' : Covers start stop point second) :
    Inside start stop first second ∨ Inside start stop second first := by
  rcases h first hfirst second hsecond with hin | hin | hlow | hhigh
  · exact Or.inl hin
  · exact Or.inr hin
  · have := hcovers.2
    have := hcovers'.1
    omega
  · have := hcovers.1
    have := hcovers'.2
    omega

theorem Forest.subset {others : List α} (h : Forest start stop items) (hsub : others ⊆ items) :
    Forest start stop others :=
  fun first hfirst second hsecond => h first (hsub hfirst) second (hsub hsecond)

/-! ### The scan -/

/-- Once the current item is not around the point, nothing more is found. -/
theorem found_foldl_of_not_covers {state : State α} {current : α}
    (hcurrent : state.current = some current) (hnot : ¬ Covers start stop point current) :
    (items.foldl (narrow start stop point) state).found = state.found := by
  induction items generalizing state current with
  | nil => rfl
  | cons item items ih =>
    rw [List.foldl_cons]
    by_cases hinside : ∀ outer ∈ state.current, Inside start stop item outer
    · have hitem : ¬ Covers start stop point item := by
        intro hcovers
        exact hnot (hcovers.of_inside (hinside current hcurrent))
      rw [narrow, if_pos hinside, if_neg hitem]
      exact ih rfl hitem
    · rw [narrow, if_neg hinside]
      exact ih hcurrent hnot

theorem Latest.append_outer {latest : α} (h : Latest start stop point before latest)
    (hitem : Covers start stop point item →
      Inside start stop latest item ∧ ¬ Inside start stop item latest) :
    Latest start stop point (before ++ [item]) latest := by
  obtain ⟨⟨front, rest, rfl, hrest⟩, hmem, hcovers, hinside⟩ := h
  refine ⟨⟨front, rest ++ [item], by simp, ?_⟩, List.mem_append_left _ hmem, hcovers, ?_⟩
  · intro other hother hcover
    rcases List.mem_append.mp hother with hother | hother
    · exact hrest other hother hcover
    · rw [List.mem_singleton.mp hother] at hcover ⊢
      exact (hitem hcover).2
  · intro outer houter hcover
    rcases List.mem_append.mp houter with houter | houter
    · exact hinside outer houter hcover
    · rw [List.mem_singleton.mp houter] at hcover ⊢
      exact (hitem hcover).1

theorem latest_append_inner (hcovers : Covers start stop point item)
    (h : ∀ outer ∈ before, Covers start stop point outer → Inside start stop item outer) :
    Latest start stop point (before ++ [item]) item := by
  refine ⟨⟨before, [], rfl, nofun⟩, List.mem_append_right _ List.mem_cons_self, hcovers, ?_⟩
  intro outer houter hcover
  rcases List.mem_append.mp houter with houter | houter
  · exact h outer houter hcover
  · rw [List.mem_singleton.mp houter]
    exact Inside.refl item

theorem Tracks.narrow {state : State α} (h : Tracks start stop point before state)
    (hforest : Forest start stop (before ++ [item]))
    (hclear : ¬ Misleads start stop point before item) :
    Tracks start stop point (before ++ [item]) (narrow start stop point state item) := by
  obtain ⟨found, current⟩ := state
  obtain ⟨hcurrent, hgives⟩ := h
  dsimp only at hcurrent hgives
  subst hcurrent
  rw [Narrow.narrow]
  cases current with
  | none =>
    have hcovers : Covers start stop point item := by
      by_contra hnot
      exact hclear ⟨hnot, fun outer houter hcover => absurd hcover (hgives outer houter)⟩
    rw [if_pos nofun, if_pos hcovers]
    refine ⟨rfl, latest_append_inner hcovers ?_⟩
    intro outer houter hcover
    exact absurd hcover (hgives outer houter)
  | some latest =>
    have hlatest : Latest start stop point before latest := hgives
    have hall : Inside start stop item latest →
        ∀ outer ∈ before, Covers start stop point outer → Inside start stop item outer := by
      intro hin outer houter hcover
      exact hin.trans (hlatest.innermost.inside outer houter hcover)
    by_cases hin : Inside start stop item latest
    · have hcovers : Covers start stop point item := by
        by_contra hnot
        exact hclear ⟨hnot, hall hin⟩
      rw [if_pos (by simpa using hin), if_pos hcovers]
      exact ⟨rfl, latest_append_inner hcovers (hall hin)⟩
    · rw [if_neg (by simpa using hin)]
      refine ⟨rfl, hlatest.append_outer ?_⟩
      intro hcovers
      have hmem : latest ∈ before ++ [item] := List.mem_append_left _ hlatest.innermost.mem
      have hlast : item ∈ before ++ [item] := List.mem_append_right _ List.mem_cons_self
      rcases hforest.nested hmem hlast hlatest.innermost.covers hcovers with hout | hin'
      · exact ⟨hout, hin⟩
      · exact absurd hin' hin

theorem Tracks.foldl {state : State α} (h : Tracks start stop point before state)
    (hforest : Forest start stop (before ++ items)) :
    Gives start stop point (clear start stop point before items)
      (items.foldl (Narrow.narrow start stop point) state).found := by
  induction items generalizing before state with
  | nil => exact h.gives
  | cons item items ih =>
    rw [List.append_cons] at hforest
    rw [List.foldl_cons, clear]
    by_cases hmisleads : Misleads start stop point before item
    · obtain ⟨hnot, hinside⟩ := hmisleads
      have hall : ∀ outer ∈ state.current, Inside start stop item outer := by
        intro outer houter
        rw [h.current_eq] at houter
        have hgives := h.gives
        rw [Option.mem_def.mp houter] at hgives
        have hlatest : Latest start stop point before outer := hgives
        exact hinside outer hlatest.innermost.mem hlatest.innermost.covers
      rw [if_pos ⟨hnot, hinside⟩, Narrow.narrow, if_pos hall, if_neg hnot,
        found_foldl_of_not_covers rfl hnot]
      exact h.gives
    · rw [if_neg hmisleads]
      apply ih _ hforest
      exact h.narrow (hforest.subset (List.subset_append_left _ _)) hmisleads

/-- The scan finds the latest of the innermost items before the first one that misleads. -/
theorem gives_foldl (hforest : Forest start stop items) :
    Gives start stop point (clear start stop point [] items)
      (items.foldl (narrow start stop point) {}).found :=
  Tracks.foldl ⟨rfl, nofun⟩ hforest

theorem mem_of_mem_clear (h : item ∈ clear start stop point before items) :
    item ∈ before ++ items := by
  induction items generalizing before with
  | nil => exact List.mem_append_left _ h
  | cons other items ih =>
    rw [clear] at h
    split_ifs at h
    · exact List.mem_append_left _ h
    · rw [List.append_cons]
      exact ih h

theorem Latest.eq {latest : α} (h : Latest start stop point items item)
    (h' : Latest start stop point items latest) : item = latest := by
  obtain ⟨⟨front, rest, rfl, hrest⟩, hinner⟩ := h
  obtain ⟨⟨front', rest', hsplit, hrest'⟩, hinner'⟩ := h'
  rcases List.append_eq_append_iff.mp hsplit with ⟨more, hfront, hmore⟩ | ⟨more, hfront, hmore⟩
  · cases more with
    | nil => exact (List.cons.inj hmore).1
    | cons first more =>
      have hmem : latest ∈ rest := by
        rw [(List.cons.inj hmore).2]
        exact List.mem_append_right _ List.mem_cons_self
      exact absurd (hinner'.inside item hinner.mem hinner.covers)
        (hrest latest hmem hinner'.covers)
  · cases more with
    | nil => exact (List.cons.inj hmore).1.symm
    | cons first more =>
      have hmem : item ∈ rest' := by
        rw [(List.cons.inj hmore).2]
        exact List.mem_append_right _ List.mem_cons_self
      exact absurd (hinner.inside latest hinner'.mem hinner'.covers)
        (hrest' item hmem hinner.covers)

theorem Gives.eq {latest latest' : Option α} (h : Gives start stop point items latest)
    (h' : Gives start stop point items latest') : latest = latest' := by
  cases latest with
  | none =>
    cases latest' with
    | none => rfl
    | some item' =>
      have hitem' : Latest start stop point items item' := h'
      exact absurd hitem'.innermost.covers (h item' hitem'.innermost.mem)
  | some item =>
    have hitem : Latest start stop point items item := h
    cases latest' with
    | none => exact absurd hitem.innermost.covers (h' item hitem.innermost.mem)
    | some item' => exact congrArg some (hitem.eq h')

end Pnet.Lib.Narrow
