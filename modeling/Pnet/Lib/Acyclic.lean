import Mathlib.Data.Fintype.Order

/-! Pointers that never lead back to where they start: where only finitely many
are set, every walk along them ends. -/
namespace Pnet.Lib

variable {α : Type}

/-- No chain of pointers leads from an element back to it. -/
def Acyclic (next : α → Option α) : Prop :=
  ∀ x, ¬ Relation.TransGen (fun x y => next x = some y) x x

variable {next : α → Option α}

open Classical in
/-- The pointers that are set and that a walk from `x` comes across. -/
noncomputable def ahead (next : α → Option α) (touched : Finset α) (x : α) : Finset α :=
  touched.filter (Relation.ReflTransGen (fun x y => next x = some y) x)

open Classical in
theorem card_ahead_lt (hacyclic : Acyclic next) {touched : Finset α}
    (htouched : ∀ x, next x ≠ none → x ∈ touched) {x y : α} (hnext : next x = some y) :
    (ahead next touched y).card < (ahead next touched x).card := by
  apply Finset.card_lt_card
  rw [Finset.ssubset_iff_of_subset]
  · refine ⟨x, ?_, fun hx => ?_⟩
    · exact Finset.mem_filter.2 ⟨htouched x (by simp [hnext]), .refl⟩
    · exact hacyclic x (.head' hnext (Finset.mem_filter.1 hx).2)
  · intro z hz
    obtain ⟨hmem, hreach⟩ := Finset.mem_filter.1 hz
    exact Finset.mem_filter.2 ⟨hmem, .head hnext hreach⟩

/-- What holds of an element once it holds of the next one holds of every element. -/
theorem Acyclic.induction (hacyclic : Acyclic next) {touched : Finset α}
    (htouched : ∀ x, next x ≠ none → x ∈ touched) {P : α → Prop}
    (hstep : ∀ x, (∀ y, next x = some y → P y) → P x) (x : α) : P x := by
  induction hcard : (ahead next touched x).card using Nat.strongRecOn generalizing x with
  | ind card ih =>
    apply hstep
    intro y hnext
    exact ih _ (hcard ▸ card_ahead_lt hacyclic htouched hnext) y rfl

end Pnet.Lib

/-! ### Recursion along a relation

A recursion along a relation, cut off at a depth. Where only finitely many elements can be
reached it ends at some depth exactly when none of them leads back to itself. -/
namespace Pnet.Lib.Descent

open Relation

variable {α : Type*} {r : α → α → Prop} {depth depth' : Nat} {a b : α}

/-- The recursion from the element ends before the depth. -/
def Within (r : α → α → Prop) : Nat → α → Prop
  | 0, _ => False
  | depth + 1, a => ∀ b, r a b → Within r depth b

theorem Within.mono (h : Within r depth a) (hle : depth ≤ depth') : Within r depth' a := by
  induction depth generalizing depth' a with
  | zero => exact h.elim
  | succ depth ih =>
    obtain ⟨depth', rfl⟩ := Nat.exists_eq_succ_of_ne_zero (show depth' ≠ 0 by omega)
    intro b hb
    exact ih (h b hb) (by omega)

theorem Within.of_reach (h : Within r depth a) (hreach : ReflTransGen r a b) :
    Within r depth b := by
  induction hreach with
  | refl => exact h
  | tail _ hstep ih =>
    cases depth with
    | zero => exact ih.elim
    | succ depth => exact (ih _ hstep).mono (Nat.le_succ depth)

theorem Within.not_transGen (h : Within r depth a) : ¬ TransGen r a a := by
  induction depth generalizing a with
  | zero => exact h.elim
  | succ depth ih =>
    intro hback
    obtain ⟨b, hstep, hreach⟩ := TransGen.head'_iff.mp hback
    exact ih ((h b hstep).of_reach hreach) hback

theorem exists_within (hfinite : {b | ReflTransGen r a b}.Finite)
    (hback : ∀ b, ReflTransGen r a b → ¬ TransGen r b b) : ∃ depth, Within r depth a := by
  have : Finite {b // ReflTransGen r a b} := hfinite
  let behind : {b // ReflTransGen r a b} → {b // ReflTransGen r a b} → Prop :=
    fun x y => TransGen r y.1 x.1
  have : IsTrans _ behind := ⟨fun _ _ _ hxy hyz => hyz.trans hxy⟩
  have : Std.Irrefl behind := ⟨fun x => hback x.1 x.2⟩
  have hwf : WellFounded behind := Finite.wellFounded_of_trans_of_irrefl behind
  have hall : ∀ x : {b // ReflTransGen r a b}, ∃ depth, Within r depth x.1 := by
    intro x
    induction x using hwf.induction with
    | _ x ih =>
      -- One depth does for all of the finitely many next elements.
      choose depth hdepth using fun y : {y // behind y x} => ih y.1 y.2
      obtain ⟨bound, hbound⟩ := Finite.exists_le depth
      refine ⟨bound + 1, fun b hb => ?_⟩
      have hstep : TransGen r x.1 b := .single hb
      exact (hdepth ⟨⟨b, x.2.tail hb⟩, hstep⟩).mono (hbound _)
  exact hall ⟨a, .refl⟩

theorem exists_within_iff (hfinite : {b | ReflTransGen r a b}.Finite) :
    (∃ depth, Within r depth a) ↔ ∀ b, ReflTransGen r a b → ¬ TransGen r b b := by
  constructor
  · rintro ⟨depth, h⟩ b hreach
    exact (h.of_reach hreach).not_transGen
  · exact exists_within hfinite

end Pnet.Lib.Descent
