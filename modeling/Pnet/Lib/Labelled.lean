import Mathlib.Algebra.BigOperators.Ring.Finset
import Mathlib.Data.Set.Card

/-! Runs of a system that takes a step for each label of a list, and what holds in every state of a
run whose labels are all allowed. -/
namespace Pnet.Lib.Labelled

variable {S L : Type*} (exec : S → L → Option S) (Allowed : S → L → Prop)

def run (s : S) (labels : List L) : Option S := labels.foldlM exec s

/-- Every label is allowed in the state that it finds. -/
def AllAllowed (s : S) : List L → Prop
  | [] => True
  | label :: labels => Allowed s label ∧ ∀ s', exec s label = some s' → AllAllowed s' labels

variable {exec Allowed}

instance decidableAllAllowed [∀ s label, Decidable (Allowed s label)] :
    ∀ (s : S) (labels : List L), Decidable (AllAllowed exec Allowed s labels)
  | _, [] => isTrue trivial
  | s, label :: labels =>
    match hexec : exec s label with
    | none => decidable_of_iff (Allowed s label) <| by simp [AllAllowed, hexec]
    | some s' =>
      have := decidableAllAllowed s' labels
      decidable_of_iff (Allowed s label ∧ AllAllowed exec Allowed s' labels) <| by
        simp [AllAllowed, hexec]

/-- What every allowed step preserves holds at the end of every allowed run. -/
theorem invariant {Inv : S → Prop}
    (hstep : ∀ {s s' label}, Inv s → Allowed s label → exec s label = some s' → Inv s')
    {s s' : S} {labels : List L} (hinv : Inv s) (hallowed : AllAllowed exec Allowed s labels)
    (hrun : run exec s labels = some s') : Inv s' := by
  induction labels generalizing s with
  | nil =>
    cases hrun
    exact hinv
  | cons label labels ih =>
    rw [run, List.foldlM_cons] at hrun
    obtain ⟨next, hnext, hrun⟩ := Option.bind_eq_some_iff.mp hrun
    exact ih (hstep hinv hallowed.1 hnext) (hallowed.2 next hnext) hrun

end Pnet.Lib.Labelled

/-! ### Totals that are kept up to date

A total that is kept up to date while the values that it is the sum of change one by one, of any
number of places of which only finitely many count. -/
namespace Pnet.Lib

open Finset

variable {α : Type*}

/-- The total is the sum of the values. -/
def Tally (value : α → Int) (total : Int) : Prop :=
  ∃ places : Finset α, (∀ a ∉ places, value a = 0) ∧ total = ∑ a ∈ places, value a

namespace Tally

variable {value : α → Int} {total : Int}

theorem zero : Tally (fun _ : α => 0) 0 := ⟨∅, fun _ _ => rfl, rfl⟩

variable [DecidableEq α]

/-- The places may be taken with one more. -/
theorem exists_mem (h : Tally value total) (a : α) : ∃ places : Finset α, a ∈ places ∧
    (∀ a ∉ places, value a = 0) ∧ total = ∑ a ∈ places, value a := by
  obtain ⟨places, hzero, rfl⟩ := h
  refine ⟨insert a places, mem_insert_self a places, ?_, ?_⟩
  · intro b hb
    exact hzero b fun hmem => hb (mem_insert_of_mem hmem)
  · by_cases ha : a ∈ places
    · rw [insert_eq_of_mem ha]
    · rw [sum_insert ha, hzero a ha, zero_add]

theorem update (h : Tally value total) (a : α) (new : Int) :
    Tally (Function.update value a new) (total + (new - value a)) := by
  obtain ⟨places, ha, hzero, rfl⟩ := h.exists_mem a
  refine ⟨places, ?_, ?_⟩
  · intro b hb
    have hne : b ≠ a := by
      rintro rfl
      exact hb ha
    rw [Function.update_of_ne hne, hzero b hb]
  · rw [sum_update_of_mem ha, ← add_sum_erase places value ha, sdiff_singleton_eq_erase]
    omega

theorem sub {value' : α → Int} {total' : Int} (h : Tally value total) (h' : Tally value' total') :
    Tally (fun a => value a - value' a) (total - total') := by
  obtain ⟨places, hzero, rfl⟩ := h
  obtain ⟨places', hzero', rfl⟩ := h'
  refine ⟨places ∪ places', ?_, ?_⟩
  · intro a ha
    dsimp only
    rw [hzero a fun hmem => ha (mem_union_left _ hmem),
      hzero' a fun hmem => ha (mem_union_right _ hmem), sub_zero]
  · rw [sum_sub_distrib, sum_subset subset_union_left fun a _ ha => hzero a ha,
      sum_subset subset_union_right fun a _ ha => hzero' a ha]

omit [DecidableEq α] in
/-- A total of ones is the number of places that count. -/
theorem eq_ncard {P : α → Prop} [DecidablePred P]
    (h : Tally (fun a => if P a then 1 else 0) total) : total = ({a | P a}.ncard : Int) := by
  obtain ⟨places, hzero, rfl⟩ := h
  have hset : {a | P a} = (places.filter P : Set α) := by
    ext a
    simp only [Set.mem_ofPred_eq, coe_filter]
    constructor
    · intro ha
      refine ⟨?_, ha⟩
      by_contra hmem
      have hvalue : (if P a then (1 : Int) else 0) = 0 := hzero a hmem
      rw [if_pos ha] at hvalue
      cases hvalue
    · exact And.right
  rw [hset, Set.ncard_coe_finset, sum_boole]

end Tally

end Pnet.Lib
