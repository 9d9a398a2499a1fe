import Mathlib.Data.Finset.Card

/-! Cells that are linked by a `next` pointer, and walks along them. -/
namespace Pnet.Lib

variable {R : Type}

/-- `next` leads from `start` through these cells to the end. -/
inductive Chain (next : R → Option R) : Option R → List R → Prop
  | nil : Chain next none []
  | cons {r : R} {cells : List R} : Chain next (next r) cells → Chain next (some r) (r :: cells)

namespace Chain

variable {next next' : R → Option R} {start : Option R} {cells : List R}

theorem unique {cells' : List R} (h : Chain next start cells) (h' : Chain next start cells') :
    cells = cells' := by
  induction h generalizing cells' with
  | nil =>
    cases h'
    rfl
  | cons _ ih =>
    cases h' with
    | cons h' => rw [ih h']

theorem of_nil (h : Chain next start []) : start = none := by
  cases h
  rfl

theorem of_cons {r : R} (h : Chain next start (r :: cells)) :
    start = some r ∧ Chain next (next r) cells := by
  cases h with
  | cons h => exact ⟨rfl, h⟩

/-- A chain only reads the pointers of its own cells. -/
theorem congr (h : Chain next start cells) (heq : ∀ r ∈ cells, next' r = next r) :
    Chain next' start cells := by
  induction h with
  | nil => exact .nil
  | @cons r cells _ ih =>
    apply cons
    rw [heq r (List.mem_cons_self ..)]
    exact ih fun r' hr' => heq r' (List.mem_cons_of_mem _ hr')

theorem of_append {pre post : List R} (h : Chain next start (pre ++ post)) :
    ∃ middle, Chain next middle post := by
  induction pre generalizing start with
  | nil => exact ⟨start, h⟩
  | cons r pre ih => exact ih h.of_cons.2

/-- A cell that came twice would start two chains of different lengths. -/
theorem nodup (h : Chain next start cells) : cells.Nodup := by
  induction h with
  | nil => exact List.nodup_nil
  | @cons r cells h ih =>
    refine List.nodup_cons.2 ⟨fun hmem => ?_, ih⟩
    obtain ⟨pre, post, hsplit⟩ := List.append_of_mem hmem
    obtain ⟨middle, hmiddle⟩ := (hsplit ▸ h).of_append
    obtain ⟨_, hpost⟩ := hmiddle.of_cons
    have hlength := congrArg List.length ((h.unique hpost).symm.trans hsplit)
    rw [List.length_append, List.length_cons] at hlength
    omega

theorem append_cell [DecidableEq R] {pre : List R} {last new : R}
    (h : Chain next start (pre ++ [last])) (hnew : new ∉ pre ++ [last]) :
    Chain (Function.update (Function.update next new none) last (some new)) start
      (pre ++ [last, new]) := by
  have hne : new ≠ last := fun heq => hnew (by simp [heq])
  induction pre generalizing start with
  | nil =>
    obtain ⟨rfl, _⟩ := h.of_cons
    apply cons
    rw [Function.update_self]
    apply cons
    rw [Function.update_of_ne hne, Function.update_self]
    exact nil
  | cons r pre ih =>
    have hnodup := List.nodup_cons.1 h.nodup
    obtain ⟨rfl, hrest⟩ := h.of_cons
    have hlast : r ≠ last := fun heq => hnodup.1 (by simp [heq])
    have hr : r ≠ new := fun heq => hnew (by simp [heq])
    apply cons
    rw [Function.update_of_ne hlast, Function.update_of_ne hr]
    exact ih hrest fun hmem => hnew (List.mem_cons_of_mem _ hmem)

/-- The pointer to a cell is set to the one after it. -/
theorem unlink [DecidableEq R] {pre post : List R} {prev r : R}
    (h : Chain next start (pre ++ prev :: r :: post)) :
    Chain (Function.update next prev (next r)) start (pre ++ prev :: post) := by
  induction pre generalizing start with
  | nil =>
    have hnodup := List.nodup_cons.1 h.nodup
    obtain ⟨rfl, hr⟩ := h.of_cons
    obtain ⟨_, hpost⟩ := hr.of_cons
    apply cons
    rw [Function.update_self]
    refine hpost.congr fun r' hr' => Function.update_of_ne (fun heq => ?_) ..
    exact hnodup.1 (heq ▸ List.mem_cons_of_mem _ hr')
  | cons r' pre ih =>
    have hnodup := List.nodup_cons.1 h.nodup
    obtain ⟨rfl, hrest⟩ := h.of_cons
    have hne : r' ≠ prev := fun heq => hnodup.1 (by simp [heq])
    apply cons
    rw [Function.update_of_ne hne]
    exact ih hrest

end Chain

/-- Distinct cells out of a list are no more than the list has. -/
theorem length_le_of_mem {cells pool : List R} (hnodup : cells.Nodup)
    (hmem : ∀ r ∈ cells, r ∈ pool) : cells.length ≤ pool.length :=
  (List.subperm_of_subset hnodup hmem).length_le

/-! ### Walking -/

/-- Walk to the first cell that passes the test; `none` when the walk takes more than
`fuel` steps. -/
def seek (next : R → Option R) (test : R → Bool) : Nat → Option R → Option (Option R)
  | _, none => some none
  | 0, some _ => none
  | fuel + 1, some r => if test r then some (some r) else seek next test fuel (next r)

theorem Chain.seek {next : R → Option R} {start : Option R} {cells : List R}
    (h : Chain next start cells) (test : R → Bool) {fuel : Nat} (hfuel : cells.length ≤ fuel) :
    Lib.seek next test fuel start = some (cells.find? test) := by
  induction h generalizing fuel with
  | nil => cases fuel <;> rfl
  | @cons r cells _ ih =>
    cases fuel with
    | zero => cases hfuel
    | succ fuel =>
      unfold Lib.seek
      rw [List.find?_cons]
      cases htest : test r with
      | true => rfl
      | false => exact ih (Nat.le_of_succ_le_succ hfuel)

end Pnet.Lib
