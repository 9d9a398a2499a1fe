import Mathlib.Data.BitVec
import Pnet.Lib.Chain

/-! A memory of bytes, words in it that link one piece of memory to the next, and pieces that
lie apart. -/
namespace Pnet.Lib

abbrev Bytes := Nat → BitVec 8

namespace Bytes

/-- The number in the `n` bytes from an address on, least significant first. -/
def load (m : Bytes) : Nat → Nat → Nat
  | 0, _ => 0
  | n + 1, p => (m p).toNat + 256 * load m n (p + 1)

/-- The memory with a number written over the `n` bytes from an address on. -/
def store (m : Bytes) (n p value : Nat) : Bytes := fun a =>
  if p ≤ a ∧ a < p + n then BitVec.ofNat 8 (value / 256 ^ (a - p)) else m a

variable {m m' : Bytes} {n p value : Nat}

theorem load_congr (h : ∀ a, p ≤ a → a < p + n → m' a = m a) : m'.load n p = m.load n p := by
  induction n generalizing p with
  | zero => rfl
  | succ n ih =>
    unfold load
    rw [h p (Nat.le_refl p) (by omega), ih fun a hlow hhigh => h a (by omega) (by omega)]

theorem load_eq (h : ∀ i < n, m (p + i) = BitVec.ofNat 8 (value / 256 ^ i))
    (hvalue : value < 256 ^ n) : m.load n p = value := by
  induction n generalizing p value with
  | zero =>
    rw [pow_zero] at hvalue
    exact (Nat.lt_one_iff.mp hvalue).symm
  | succ n ih =>
    have hfirst := h 0 (Nat.succ_pos n)
    rw [pow_zero, Nat.div_one, Nat.add_zero] at hfirst
    have hrest : m.load n (p + 1) = value / 256 := by
      apply ih
      · intro i hi
        have hi' := h (i + 1) (by omega)
        rw [Nat.pow_succ', ← Nat.div_div_eq_div_mul, Nat.add_comm i 1, ← Nat.add_assoc] at hi'
        exact hi'
      · rw [Nat.pow_succ'] at hvalue
        exact Nat.div_lt_of_lt_mul hvalue
    unfold load
    rw [hfirst, hrest, BitVec.toNat_ofNat]
    exact Nat.mod_add_div value 256

theorem load_store (hvalue : value < 256 ^ n) : (m.store n p value).load n p = value := by
  apply load_eq _ hvalue
  intro i hi
  rw [store, if_pos ⟨by omega, by omega⟩, Nat.add_sub_cancel_left]

theorem store_of_not {a : Nat} (h : ¬ (p ≤ a ∧ a < p + n)) : m.store n p value a = m a :=
  if_neg h

/-- A pointer of which zero means that there is none. -/
def toLink (value : Nat) : Option Nat := if value = 0 then none else some value

theorem toLink_of_ne (h : value ≠ 0) : toLink value = some value := if_neg h

theorem toLink_eq_none : toLink value = none ↔ value = 0 := by
  rw [toLink, ite_eq_left_iff, imp_iff_not (Option.some_ne_none value), not_not]

theorem toLink_eq_some {r : Nat} : toLink value = some r ↔ value = r ∧ r ≠ 0 := by
  by_cases h : value = 0
  · subst h
    exact ⟨fun hr => absurd hr.symm (Option.some_ne_none r), fun hr => absurd hr.1.symm hr.2⟩
  · rw [toLink_of_ne h, Option.some.injEq]
    exact ⟨fun hr => ⟨hr, hr ▸ h⟩, fun hr => hr.1⟩

/-- The link at the start of a piece of memory. -/
def next (m : Bytes) (n p : Nat) : Option Nat := toLink (m.load n p)

theorem next_congr (h : ∀ a, p ≤ a → a < p + n → m' a = m a) : m'.next n p = m.next n p := by
  rw [next, next, load_congr h]

end Bytes

/-- A piece of memory. -/
structure Extent where
  start : Nat
  size : Nat
deriving DecidableEq

namespace Extent

def Has (r : Extent) (a : Nat) : Prop := r.start ≤ a ∧ a < r.start + r.size

def Apart (r s : Extent) : Prop := r.start + r.size ≤ s.start ∨ s.start + s.size ≤ r.start

/-- The piece lies in the other one. -/
def Within (r s : Extent) : Prop := s.start ≤ r.start ∧ r.start + r.size ≤ s.start + s.size

variable {r s t : Extent}

theorem Apart.symm (h : r.Apart s) : s.Apart r := Or.symm h

theorem Apart.not_has {a : Nat} (h : r.Apart s) (ha : s.Has a) : ¬ r.Has a := by
  unfold Apart at h
  unfold Has at *
  omega

theorem Within.has {a : Nat} (h : r.Within s) (ha : r.Has a) : s.Has a := by
  unfold Within at h
  unfold Has at *
  omega

theorem Within.apart (h : r.Within s) (hst : s.Apart t) : r.Apart t := by
  unfold Within at h
  unfold Apart at *
  omega

end Extent

end Pnet.Lib
