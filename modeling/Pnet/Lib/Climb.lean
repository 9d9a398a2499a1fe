import Mathlib.Data.List.Induction

/-! A scan that goes on from the item it holds to the next one that is not lower and has a higher
value. Both are asked for at once, so that it can miss the items with the highest value among those
of the greatest height. -/
namespace Pnet.Lib.Climb

variable {α γ : Type*} (height value : α → Nat)

def Up (held item : α) : Prop := height held ≤ height item ∧ value held < value item

instance (held item : α) : Decidable (Up height value held item) :=
  inferInstanceAs (Decidable (_ ∧ _))

def climb (held : Option α) (item : α) : Option α :=
  match held with
  | none => some item
  | some old => if Up height value old item then some item else held

/-- The items that go up from each such item before them. -/
def leading (items : List α) : List α :=
  items.foldl (fun led item => if ∀ old ∈ led, Up height value old item then led ++ [item] else led)
    []

/-- One of the highest values among the items of the greatest height. -/
structure Best (items : List α) (item : α) : Prop where
  mem : item ∈ items
  height_le : ∀ other ∈ items, height other ≤ height item
  value_le : ∀ other ∈ items, height other = height item → value other ≤ value item

/-- The scan ends at the place of a best item. -/
def Finds (place : α → γ) (items : List α) : Prop :=
  ∃ last, items.foldl (climb height value) none = some last ∧
    ∃ best, Best height value items best ∧ place best = place last

/-- The item has a lower value than the best ones, or the place of one. -/
def Harmless (place : α → γ) (items : List α) (item : α) : Prop :=
  (∀ best, Best height value items best → value item < value best) ∨
    ∃ best, Best height value items best ∧ place best = place item

variable {height value} {items order : List α} {item : α}

theorem leading_concat : leading height value (items ++ [item]) =
    if ∀ old ∈ leading height value items, Up height value old item then
      leading height value items ++ [item]
    else leading height value items := by
  rw [leading, List.foldl_append]
  rfl

theorem leading_append (rest : List α) :
    leading height value items <+: leading height value (items ++ rest) := by
  induction rest using List.reverseRecOn with
  | nil => simp
  | append_singleton rest last ih =>
    rw [← List.append_assoc, leading_concat]
    split_ifs
    · exact ih.trans (List.prefix_append _ _)
    · exact ih

theorem mem_of_mem_leading (h : item ∈ leading height value items) : item ∈ items := by
  induction items using List.reverseRecOn with
  | nil => exact h
  | append_singleton items last ih =>
    rw [leading_concat] at h
    split_ifs at h
    · rcases List.mem_append.mp h with h | h
      · exact List.mem_append_left _ (ih h)
      · exact List.mem_append_right _ h
    · exact List.mem_append_left _ (ih h)

theorem pairwise_leading : (leading height value items).Pairwise (Up height value) := by
  induction items using List.reverseRecOn with
  | nil => exact List.Pairwise.nil
  | append_singleton items last ih =>
    rw [leading_concat]
    split_ifs with hup
    · rw [List.pairwise_append]
      refine ⟨ih, List.pairwise_singleton _ _, ?_⟩
      intro old hold item hitem
      rw [List.mem_singleton.mp hitem]
      exact hup old hold
    · exact ih

theorem leading_ne_nil (h : items ≠ []) : leading height value items ≠ [] := by
  cases items with
  | nil => exact absurd rfl h
  | cons first rest =>
    have hfirst : leading height value [first] = [first] := rfl
    have hstart := @leading_append _ height value [first] rest
    rw [hfirst] at hstart
    intro hnil
    rw [List.singleton_append, hnil] at hstart
    exact absurd (List.prefix_nil.mp hstart) (List.cons_ne_nil _ _)

/-- The last of the leading items goes up from the others. -/
theorem up_last {last : α} (hlast : (leading height value items).getLast? = some last)
    (h : item ∈ leading height value items) : item = last ∨ Up height value item last := by
  obtain ⟨front, hfront⟩ := List.getLast?_eq_some_iff.mp hlast
  have hpairwise := @pairwise_leading _ height value items
  rw [hfront, List.pairwise_append] at hpairwise
  rw [hfront] at h
  rcases List.mem_append.mp h with h | h
  · exact Or.inr (hpairwise.2.2 item h last (List.mem_singleton_self _))
  · exact Or.inl (List.mem_singleton.mp h)

/-- The scan holds the last of the leading items. -/
theorem foldl_climb (items : List α) :
    items.foldl (climb height value) none = (leading height value items).getLast? := by
  induction items using List.reverseRecOn with
  | nil => rfl
  | append_singleton items item ih =>
    rw [List.foldl_append, List.foldl_cons, List.foldl_nil, ih, leading_concat]
    cases hlast : (leading height value items).getLast? with
    | none =>
      have hnil := List.getLast?_eq_none_iff.mp hlast
      rw [hnil]
      rfl
    | some last =>
      have hiff : (∀ old ∈ leading height value items, Up height value old item) ↔
          Up height value last item := by
        constructor
        · intro hall
          exact hall last (List.mem_of_getLast? hlast)
        · intro hup old hold
          rcases up_last hlast hold with rfl | hold
          · exact hup
          · exact ⟨Nat.le_trans hold.1 hup.1, Nat.lt_trans hold.2 hup.2⟩
      rw [climb]
      by_cases hup : Up height value last item
      · rw [if_pos hup, if_pos (hiff.mpr hup), List.getLast?_concat]
      · rw [if_neg hup, if_neg (mt hiff.mp hup), hlast]

/-! ### The best items -/

theorem Best.value_eq {other : α} (h : Best height value items item)
    (h' : Best height value items other) : value item = value other := by
  have hheight := Nat.le_antisymm (h'.height_le item h.mem) (h.height_le other h'.mem)
  exact Nat.le_antisymm (h'.value_le item h.mem hheight) (h.value_le other h'.mem hheight.symm)

theorem exists_best (h : items ≠ []) : ∃ item, Best height value items item := by
  induction items with
  | nil => exact absurd rfl h
  | cons first rest ih =>
    by_cases hrest : rest = []
    · subst hrest
      exact ⟨first, List.mem_cons_self, by simp, by simp⟩
    · obtain ⟨best, hmem, hheight, hvalue⟩ := ih hrest
      by_cases hfirst : height best < height first ∨
          height best = height first ∧ value best < value first
      · refine ⟨first, List.mem_cons_self, ?_, ?_⟩
        · intro other hother
          rcases List.mem_cons.mp hother with rfl | hother
          · exact Nat.le_refl _
          · have := hheight other hother
            omega
        · intro other hother heq
          rcases List.mem_cons.mp hother with rfl | hother
          · exact Nat.le_refl _
          · have := hheight other hother
            have := hvalue other hother
            omega
      · refine ⟨best, List.mem_cons_of_mem _ hmem, ?_, ?_⟩
        · intro other hother
          rcases List.mem_cons.mp hother with rfl | hother
          · omega
          · exact hheight other hother
        · intro other hother heq
          rcases List.mem_cons.mp hother with rfl | hother
          · omega
          · exact hvalue other hother heq

section Place

variable {place : α → γ} (hplace : ∀ {a b : α}, place a = place b → value a = value b)
include hplace

theorem finds_iff (hne : items ≠ []) : Finds height value place items ↔
    ∀ item ∈ leading height value items, Harmless height value place items item := by
  obtain ⟨last, hlast⟩ : ∃ last, (leading height value items).getLast? = some last :=
    ⟨_, List.getLast?_eq_some_getLast (leading_ne_nil hne)⟩
  rw [Finds, foldl_climb, hlast]
  constructor
  · rintro ⟨last', hlast', best, hbest, hsame⟩ item hitem
    cases hlast'
    rcases up_last hlast hitem with rfl | hup
    · exact Or.inr ⟨best, hbest, hsame⟩
    · left
      intro other hother
      rw [hother.value_eq hbest, hplace hsame]
      exact hup.2
  · intro hharmless
    refine ⟨last, rfl, ?_⟩
    rcases hharmless last (List.mem_of_getLast? hlast) with hlow | hbest
    · -- A best item would have gone up from all that lead before it.
      exfalso
      obtain ⟨best, hbest⟩ := @exists_best _ height value items hne
      obtain ⟨front, rest, hsplit⟩ := List.append_of_mem hbest.mem
      have hbefore : leading height value front <+: leading height value items := by
        rw [hsplit]
        exact leading_append _
      have hup : ∀ old ∈ leading height value front, Up height value old best := by
        intro old hold
        refine ⟨hbest.height_le old (mem_of_mem_leading (hbefore.subset hold)), ?_⟩
        rcases up_last hlast (hbefore.subset hold) with rfl | hup
        · exact hlow best hbest
        · exact Nat.lt_trans hup.2 (hlow best hbest)
      have hleads : best ∈ leading height value items := by
        have hthen : leading height value (front ++ [best]) <+: leading height value items := by
          rw [hsplit, List.append_cons front best rest]
          exact leading_append _
        apply hthen.subset
        rw [leading_concat, if_pos hup]
        exact List.mem_append_right _ (List.mem_singleton_self _)
      have hless := hlow best hbest
      rcases up_last hlast hleads with rfl | hup
      · omega
      · have := hup.2
        omega
    · exact hbest

end Place

end Pnet.Lib.Climb
