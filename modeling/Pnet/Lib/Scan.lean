import Mathlib.Data.List.Perm.Subperm

/-! A scan from left to right that keeps the best item so far, and remembers whether some
item was better than another at all. What two items are judged by may depend on the first
item of the list. Which judgements make the result the same in every order is found from
the orders that put the items in question first. -/
namespace Pnet.Lib.Scan

/-- Of the best item so far and the next one. -/
inductive Verdict where
  | keep
  | switch
  | neither
deriving DecidableEq, Repr

section Scan

variable {α : Type*} (judge : α → α → α → Verdict)

def scan (first best : α) (saw : Bool) : List α → Option α
  | [] => if saw then some best else none
  | item :: items =>
    match judge first best item with
    | .keep => scan first best true items
    | .switch => scan first item true items
    | .neither => scan first best saw items

def pick : List α → Option α
  | [] => none
  | first :: items => scan judge first first false items

/-- `best` is what a scan holds after the items `used`, each of which took over. -/
inductive Reached (first : α) : α → List α → Prop where
  | start : Reached first first [first]
  | step {best item : α} {used : List α} (h : Reached first best used) (hnew : item ∉ used)
    (hswitch : judge first best item = .switch) : Reached first item (item :: used)

/-- The judgements that make `winner` the result in every order. -/
structure Dominates (items : List α) (winner : α) : Prop where
  reached : ∀ first best used, Reached judge first best used →
    (∀ item ∈ used, item ∈ items ∧ item ≠ winner) → judge first best winner = .switch
  held : ∀ first ∈ items, first ≠ winner → ∀ item ∈ items, item ≠ winner → item ≠ first →
    judge first winner item ≠ .switch
  first : ∀ item ∈ items, item ≠ winner → judge winner winner item ≠ .switch
  saw : ∃ item ∈ items, item ≠ winner ∧ judge winner winner item = .keep

variable {judge} {first best winner : α} {saw : Bool} {items used : List α}

theorem scan_mem {result : α} (h : scan judge first best saw items = some result) :
    result ∈ best :: items := by
  induction items generalizing best saw with
  | nil =>
    unfold scan at h
    split_ifs at h
    rw [Option.some.inj h]
    exact List.mem_cons_self
  | cons item items ih =>
    unfold scan at h
    cases hjudge : judge first best item with
    | keep | neither =>
      rw [hjudge] at h
      cases List.mem_cons.1 (ih h) with
      | inl heq => exact heq ▸ List.mem_cons_self
      | inr hmem => exact List.mem_cons_of_mem _ (List.mem_cons_of_mem _ hmem)
    | switch =>
      rw [hjudge] at h
      exact List.mem_cons_of_mem _ (ih h)

/-- Once an item was better than another, there is a result. -/
theorem isSome_scan (items : List α) : (scan judge first best true items).isSome = true := by
  induction items generalizing best with
  | nil => rfl
  | cons item items ih =>
    unfold scan
    cases judge first best item <;> exact ih

/-- The best item stays when no other takes over. -/
theorem scan_held (h : ∀ item ∈ items, judge first best item ≠ .switch)
    (hsaw : saw = true ∨ ∃ item ∈ items, judge first best item = .keep) :
    scan judge first best saw items = some best := by
  induction items generalizing saw with
  | nil =>
    cases hsaw with
    | inl hsaw => rw [hsaw]; rfl
    | inr hsaw =>
      obtain ⟨item, hmem, _⟩ := hsaw
      cases hmem
  | cons item items ih =>
    obtain ⟨hitem, hrest⟩ := List.forall_mem_cons.1 h
    unfold scan
    cases hjudge : judge first best item with
    | keep => exact ih hrest (.inl rfl)
    | switch => exact absurd hjudge hitem
    | neither =>
      apply ih hrest
      apply hsaw.imp_right
      rintro ⟨other, hmem, hkeep⟩
      cases hmem with
      | head => cases hjudge.symm.trans hkeep
      | tail _ hmem => exact ⟨other, hmem, hkeep⟩

theorem scan_neither (h : ∀ item ∈ items, judge first best item = .neither) :
    scan judge first best false items = none := by
  induction items with
  | nil => rfl
  | cons item items ih =>
    obtain ⟨hitem, hrest⟩ := List.forall_mem_cons.1 h
    unfold scan
    rw [hitem]
    exact ih hrest

theorem Reached.nodup (h : Reached judge first best used) : used.Nodup := by
  induction h with
  | start => simp
  | step _ hnew _ ih => exact List.nodup_cons.2 ⟨hnew, ih⟩

theorem Reached.best_mem (h : Reached judge first best used) : best ∈ used := by
  cases h <;> exact List.mem_cons_self

theorem Reached.first_mem (h : Reached judge first best used) : first ∈ used := by
  induction h with
  | start => exact List.mem_cons_self
  | step _ _ _ ih => exact List.mem_cons_of_mem _ ih

theorem Reached.pick (h : Reached judge first best used) :
    ∃ saw, ∀ items, pick judge (used.reverse ++ items) = scan judge first best saw items := by
  induction h with
  | start => exact ⟨false, fun items => rfl⟩
  | @step best item used _ _ hswitch ih =>
    obtain ⟨saw, hpick⟩ := ih
    refine ⟨true, fun items => ?_⟩
    rw [List.reverse_cons, List.append_assoc, hpick]
    simp only [List.singleton_append, scan, hswitch]

/-- An order with given items first. -/
theorem exists_order {items front : List α} (hnodup : front.Nodup) (hsub : front ⊆ items) :
    ∃ rest, (front ++ rest).Perm items := by
  obtain ⟨chosen, hchosen, hsublist⟩ := List.subperm_of_subset hnodup hsub
  obtain ⟨rest, hperm⟩ := hsublist.exists_perm_append
  exact ⟨rest, (hchosen.symm.append_right rest).trans hperm.symm⟩

theorem scan_reached (hdom : Dominates judge items winner) {rest : List α}
    (hreached : Reached judge first best used) (hne : first ≠ winner)
    (hused : ∀ item ∈ used, item ∈ items ∧ item ≠ winner)
    (hnodup : (used.reverse ++ rest).Nodup) (hrest : ∀ item ∈ rest, item ∈ items)
    (hwinner : winner ∈ rest) : scan judge first best saw rest = some winner := by
  induction rest generalizing best saw used with
  | nil => cases hwinner
  | cons item rest ih =>
    obtain ⟨hitem, hrest'⟩ := List.forall_mem_cons.1 hrest
    have happart := (List.nodup_append.1 hnodup).2.2
    by_cases heq : item = winner
    · subst heq
      unfold scan
      rw [hdom.reached first best used hreached hused]
      apply scan_held _ (.inl rfl)
      intro other hother
      have hnot : item ∉ rest := (List.nodup_cons.1 (List.nodup_append.1 hnodup).2.1).1
      apply hdom.held first (hused first hreached.first_mem).1 hne other (hrest' other hother)
      · rintro rfl
        exact hnot hother
      · rintro rfl
        exact happart _ (List.mem_reverse.2 hreached.first_mem) _
          (List.mem_cons_of_mem _ hother) rfl
    · have hmem : winner ∈ rest := by
        cases hwinner with
        | head => exact absurd rfl heq
        | tail _ hmem => exact hmem
      have hskip : (used.reverse ++ rest).Nodup :=
        hnodup.sublist (List.Sublist.append_left (List.sublist_cons_self item rest) _)
      unfold scan
      cases hjudge : judge first best item with
      | keep | neither => exact ih hreached hused hskip hrest' hmem
      | switch =>
        have hnew : item ∉ used := by
          intro hold
          exact happart _ (List.mem_reverse.2 hold) _ List.mem_cons_self rfl
        apply ih (hreached.step hnew hjudge) _ _ hrest' hmem
        · intro other hother
          cases hother with
          | head => exact ⟨hitem, heq⟩
          | tail _ hother => exact hused other hother
        · rw [List.reverse_cons, List.append_assoc]
          exact hnodup

theorem pick_of_dominates (hdom : Dominates judge items winner) (hnodup : items.Nodup)
    (hwinner : winner ∈ items) {order : List α} (hperm : order.Perm items) :
    pick judge order = some winner := by
  have hmem : ∀ item ∈ order, item ∈ items := fun item => hperm.mem_iff.1
  have horder := hperm.nodup_iff.2 hnodup
  cases order with
  | nil => cases hperm.mem_iff.2 hwinner
  | cons first rest =>
    obtain ⟨hfirst, hrest⟩ := List.forall_mem_cons.1 hmem
    have hnew := (List.nodup_cons.1 horder).1
    by_cases heq : first = winner
    · subst heq
      apply scan_held
      · intro item hitem
        apply hdom.first item (hrest item hitem)
        rintro rfl
        exact hnew hitem
      · obtain ⟨item, hitem, hne, hkeep⟩ := hdom.saw
        cases hperm.mem_iff.2 hitem with
        | head => exact absurd rfl hne
        | tail _ hitem => exact .inr ⟨item, hitem, hkeep⟩
    · apply scan_reached hdom .start heq _ horder hrest
      · cases hperm.mem_iff.2 hwinner with
        | head => exact absurd rfl heq
        | tail _ hmem => exact hmem
      · intro item hitem
        rw [List.mem_singleton.1 hitem]
        exact ⟨hfirst, heq⟩

/-- An item that another one takes over from is not the result. -/
theorem ne_of_switched {result : α} (h : scan judge first best saw items = some result)
    (hnodup : (winner :: best :: items).Nodup) : result ≠ winner := by
  rintro rfl
  exact (List.nodup_cons.1 hnodup).1 (scan_mem h)

theorem dominates_of_pick (hnodup : items.Nodup) (hwinner : winner ∈ items)
    (h : ∀ order, order.Perm items → pick judge order = some winner) :
    Dominates judge items winner := by
  have hreached : ∀ first best used, Reached judge first best used →
      (∀ item ∈ used, item ∈ items ∧ item ≠ winner) → judge first best winner = .switch := by
    intro first best used hreached hused
    have hnew : winner ∉ used := fun hmem => (hused winner hmem).2 rfl
    have hfront : (used.reverse ++ [winner]).Nodup := by
      rw [← List.reverse_cons, (List.reverse_perm _).nodup_iff]
      exact List.nodup_cons.2 ⟨hnew, hreached.nodup⟩
    have hsub : used.reverse ++ [winner] ⊆ items := by
      intro item hitem
      rw [List.mem_append, List.mem_reverse, List.mem_singleton] at hitem
      cases hitem with
      | inl hitem => exact (hused item hitem).1
      | inr heq => exact heq ▸ hwinner
    obtain ⟨rest, hperm⟩ := exists_order hfront hsub
    obtain ⟨saw, hpick⟩ := hreached.pick
    have hresult := h _ hperm
    rw [List.append_assoc, hpick] at hresult
    have hrest := hperm.nodup_iff.2 hnodup
    rw [List.append_assoc] at hrest
    have hbest : winner ≠ best := by
      rintro rfl
      exact hnew hreached.best_mem
    have hwinnerRest : winner ∉ rest := (List.nodup_cons.1 (List.nodup_append.1 hrest).2.1).1
    by_contra hjudge
    -- the best item stays, and the winner is not seen again
    have hcontra : ∃ saw, scan judge first best saw rest = some winner := by
      rw [List.singleton_append, scan] at hresult
      cases hverdict : judge first best winner with
      | keep => exact ⟨true, by rwa [hverdict] at hresult⟩
      | switch => exact absurd hverdict hjudge
      | neither => exact ⟨saw, by rwa [hverdict] at hresult⟩
    obtain ⟨saw, hscan⟩ := hcontra
    cases List.mem_cons.1 (scan_mem hscan) with
    | inl heq => exact hbest heq
    | inr hmem => exact hwinnerRest hmem
  have hfirst : ∀ item ∈ items, item ≠ winner → judge winner winner item ≠ .switch := by
    intro item hitem hne hswitch
    have hfront : [winner, item].Nodup := by simp [hne.symm]
    have hsub : [winner, item] ⊆ items := by simp [hwinner, hitem]
    obtain ⟨rest, hperm⟩ := exists_order hfront hsub
    have hresult := h _ hperm
    simp only [List.cons_append, List.nil_append, pick, scan, hswitch] at hresult
    exact ne_of_switched hresult (hperm.nodup_iff.2 hnodup) rfl
  constructor
  · exact hreached
  · intro first hfirst hne item hitem hitemWinner hitemFirst hswitch
    have hfront : [first, winner, item].Nodup := by
      simp [hne, hitemWinner.symm, hitemFirst.symm]
    have hsub : [first, winner, item] ⊆ items := by simp [hfirst, hwinner, hitem]
    obtain ⟨rest, hperm⟩ := exists_order hfront hsub
    have hresult := h _ hperm
    have hstart : judge first first winner = .switch := by
      apply hreached first first [first] .start
      simpa using ⟨hfirst, hne⟩
    simp only [List.cons_append, List.nil_append, pick, scan, hstart, hswitch] at hresult
    have hrest := (List.nodup_cons.1 (hperm.nodup_iff.2 hnodup)).2
    exact ne_of_switched hresult hrest rfl
  · exact hfirst
  · have hsub : [winner] ⊆ items := by simp [hwinner]
    obtain ⟨rest, hperm⟩ := exists_order (by simp) hsub
    have hresult := h _ hperm
    have hnot := (List.nodup_cons.1 (hperm.nodup_iff.2 hnodup)).1
    by_contra hnone
    have hneither : ∀ item ∈ rest, judge winner winner item = .neither := by
      intro item hitem
      have hmem : item ∈ items := hperm.mem_iff.1 (List.mem_cons_of_mem _ hitem)
      have hne : item ≠ winner := by
        rintro rfl
        exact hnot hitem
      cases hjudge : judge winner winner item with
      | neither => rfl
      | keep => exact absurd ⟨item, hmem, hne, hjudge⟩ hnone
      | switch => exact absurd hjudge (hfirst item hmem hne)
    cases (scan_neither hneither).symm.trans hresult

/-- The same item is the result in every order. -/
theorem pick_perm_iff (hnodup : items.Nodup) (hwinner : winner ∈ items) :
    (∀ order, order.Perm items → pick judge order = some winner) ↔
      Dominates judge items winner :=
  ⟨dominates_of_pick hnodup hwinner,
    fun hdom _ hperm => pick_of_dominates hdom hnodup hwinner hperm⟩

/-- There is no result in any order. -/
theorem pick_none_iff (hnodup : items.Nodup) :
    (∀ order, order.Perm items → pick judge order = none) ↔
      ∀ item ∈ items, ∀ other ∈ items, item ≠ other → judge item item other = .neither := by
  constructor
  · intro h item hitem other hother hne
    have hfront : [item, other].Nodup := by simp [hne]
    have hsub : [item, other] ⊆ items := by simp [hitem, hother]
    obtain ⟨rest, hperm⟩ := exists_order hfront hsub
    have hresult := h _ hperm
    simp only [List.cons_append, List.nil_append, pick, scan] at hresult
    cases hjudge : judge item item other with
    | neither => rfl
    | keep =>
      rw [hjudge] at hresult
      cases (congrArg Option.isSome hresult).symm.trans (isSome_scan rest)
    | switch =>
      rw [hjudge] at hresult
      cases (congrArg Option.isSome hresult).symm.trans (isSome_scan rest)
  · intro h order hperm
    cases order with
    | nil => rfl
    | cons first rest =>
      apply scan_neither
      intro item hitem
      apply h first (hperm.mem_iff.1 List.mem_cons_self) item
        (hperm.mem_iff.1 (List.mem_cons_of_mem _ hitem))
      rintro rfl
      exact (List.nodup_cons.1 (hperm.nodup_iff.2 hnodup)).1 hitem

end Scan

end Pnet.Lib.Scan
