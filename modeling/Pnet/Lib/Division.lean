import Mathlib.Algebra.Order.Floor.Semifield
import Mathlib.Data.Int.ModEq
import Mathlib.Data.Rat.Floor

/-! The extended Euclid algorithm over integers, for the cofactor of one of the
two numbers. The cofactors alternate in sign, so their weighted sum of
magnitudes is the other number throughout; that bounds the answer. -/
namespace Pnet.Lib

/-- Cofactors `u1`, `v1` of `x` modulo `m` for the remainders `u3`, `v3`. -/
structure EuclidState (x m u1 u3 v1 v3 : Int) : Prop where
  cofactor_u : m ∣ u3 - u1 * x
  cofactor_v : m ∣ v3 - v1 * x
  gcd_eq : Int.gcd u3 v3 = Int.gcd x m
  nonneg_u : 0 ≤ u3
  nonneg_v : 0 ≤ v3
  alternate : u1 * v1 ≤ 0
  weight : v3 * |u1| + u3 * |v1| = m
  /-- Holds from the first round on; `v1` is zero before it. -/
  ordered : v1 = 0 ∨ v3 < u3 ∧ |u1| ≤ |v1|

namespace EuclidState

variable {x m u1 u3 v1 v3 q r : Int}

theorem init (hx : 0 ≤ x) (hm : 0 ≤ m) : EuclidState x m 1 x 0 m where
  cofactor_u := by simp
  cofactor_v := by simp
  gcd_eq := rfl
  nonneg_u := hx
  nonneg_v := hm
  alternate := by simp
  weight := by simp
  ordered := .inl rfl

theorem abs_next (h : u1 * v1 ≤ 0) (hq : 0 ≤ q) : |u1 - v1 * q| = |u1| + |v1| * q := by
  rcases le_total 0 u1 with hu | hu <;> rcases le_total 0 v1 with hv | hv
  · rcases hu.eq_or_lt with hu0 | hu0
    · rw [← hu0, zero_sub, abs_neg, abs_mul, abs_of_nonneg hq]
      simp
    · have hv0 : v1 = 0 := by nlinarith
      simp [hv0]
  · rw [abs_of_nonneg hu, abs_of_nonpos hv, abs_of_nonneg (by nlinarith)]
    ring
  · rw [abs_of_nonpos hu, abs_of_nonneg hv, abs_of_nonpos (by nlinarith)]
    ring
  · rcases hu.eq_or_lt with hu0 | hu0
    · rw [hu0, zero_sub, abs_neg, abs_mul, abs_of_nonneg hq]
      simp
    · have hv0 : v1 = 0 := by nlinarith
      simp [hv0]

/-- One round: divide `u3` by `v3` and rotate. -/
theorem step (h : EuclidState x m u1 u3 v1 v3) (hdiv : u3 = q * v3 + r) (hr : 0 ≤ r) (hlt : r < v3) :
    EuclidState x m v1 v3 (u1 - v1 * q) (u3 - v3 * q) ∧ u3 - v3 * q = r := by
  have hrem : u3 - v3 * q = r := by
    rw [hdiv]
    ring
  have hq : 0 ≤ q := by
    by_contra hneg
    have := h.nonneg_u
    nlinarith
  have habs := abs_next h.alternate hq
  refine ⟨⟨h.cofactor_v, ?_, ?_, h.nonneg_v, by rw [hrem]; exact hr, ?_, ?_, .inr ⟨by
    rw [hrem]; exact hlt, ?_⟩⟩, hrem⟩
  · have hsplit : u3 - v3 * q - (u1 - v1 * q) * x = (u3 - u1 * x) - (v3 - v1 * x) * q := by ring
    rw [hsplit]
    exact dvd_sub h.cofactor_u (h.cofactor_v.mul_right q)
  · rw [← h.gcd_eq, Int.gcd_comm u3 v3, Int.gcd_sub_mul_left_right]
  · nlinarith [h.alternate, mul_self_nonneg v1]
  · rw [habs]
    linarith [h.weight, mul_comm v3 q]
  · rw [habs]
    rcases h.ordered with hzero | ⟨hlt', -⟩
    · rw [hzero, abs_zero, zero_mul, add_zero]
      exact abs_nonneg u1
    · have hq1 : 1 ≤ q := by
        by_contra hsmall
        have hq0 : q = 0 := by omega
        rw [hq0] at hdiv
        omega
      have hv := abs_nonneg v1
      nlinarith [abs_nonneg u1]

/-- At the end of a run on coprime numbers the cofactor is an inverse within `(-m, m)`. -/
theorem done (h : EuclidState x m u1 u3 v1 0) (hm : 1 < m) (hgcd : Int.gcd x m = 1) :
    u1 * x % m = 1 ∧ |u1| < m := by
  have hu3 : u3 = 1 := by
    have hnat : u3.natAbs = 1 := by
      have := h.gcd_eq
      rwa [Int.gcd_zero_right, hgcd] at this
    have := h.nonneg_u
    omega
  have hone : u1 * x % m = 1 := by
    have hmod := (Int.modEq_iff_dvd.mpr h.cofactor_u)
    rw [hu3] at hmod
    exact Eq.trans hmod (Int.emod_eq_of_lt (by omega) hm)
  refine ⟨hone, ?_⟩
  have hweight := h.weight
  rw [hu3, zero_mul, zero_add, one_mul] at hweight
  have hle : |u1| ≤ m := by
    rcases h.ordered with hzero | ⟨-, hle⟩
    · rw [hzero, abs_zero] at hweight
      omega
    · rwa [hweight] at hle
  refine lt_of_le_of_ne hle fun heq => ?_
  have hdvd : m ∣ u1 := by
    rw [← dvd_abs, heq]
  rw [Int.emod_eq_zero_of_dvd (hdvd.mul_right x)] at hone
  omega

end EuclidState

end Pnet.Lib

/-! ### Rounding

Rounding of numbers that are not negative, at a number of decimal places. A rule decides
on the whole part and on the fraction whether the whole part is rounded up. -/
namespace Pnet.Lib.Rounding

abbrev Rule := Nat → ℚ → Bool

def down : Rule := fun _ _ => false

def halfUp : Rule := fun _ fraction => 1 / 2 ≤ fraction

def halfEven : Rule := fun whole fraction =>
  1 / 2 < fraction ∨ (fraction = 1 / 2 ∧ whole % 2 = 1)

/-- What is left of a number without its whole part. -/
def frac (x : ℚ) : ℚ := x - ⌊x⌋₊

def round (rule : Rule) (x : ℚ) : Nat := ⌊x⌋₊ + (rule ⌊x⌋₊ (frac x)).toNat

variable {rule : Rule} {x : ℚ}

theorem frac_natCast (n : Nat) : frac (n : ℚ) = 0 := by
  unfold frac
  rw [Nat.floor_natCast, sub_self]

theorem floor_le_round (rule : Rule) (x : ℚ) : ⌊x⌋₊ ≤ round rule x := Nat.le_add_right _ _

theorem round_le_floor_succ (rule : Rule) (x : ℚ) : round rule x ≤ ⌊x⌋₊ + 1 := by
  unfold round
  exact Nat.add_le_add_left (Bool.toNat_le _) _

/-- A rule that leaves whole numbers as they are. -/
theorem round_natCast (hrule : ∀ n, rule n 0 = false) (n : Nat) : round rule (n : ℚ) = n := by
  unfold round
  rw [Nat.floor_natCast, frac_natCast, hrule, Bool.toNat_false, Nat.add_zero]

/-! ### Decimal places -/

theorem floor_places (x : ℚ) (s k : Nat) : ⌊x * 10 ^ s⌋₊ = ⌊x * 10 ^ (s + k)⌋₊ / 10 ^ k := by
  have hdiv : x * 10 ^ s = x * 10 ^ (s + k) / ((10 ^ k : Nat) : ℚ) := by
    rw [pow_add]
    push_cast
    field_simp
  rw [hdiv, Nat.floor_div_natCast]

theorem floor_places_mono (hx : 0 ≤ x) {s s' : Nat} (hs : s ≤ s') :
    ⌊x * 10 ^ s⌋₊ ≤ ⌊x * 10 ^ s'⌋₊ := by
  apply Nat.floor_le_floor
  apply mul_le_mul_of_nonneg_left _ hx
  exact pow_le_pow_right₀ (by norm_num) hs

/-- The first digit of the fraction tells how it compares with a number of tenths. -/
theorem digit_le_iff (hx : 0 ≤ x) {digit : Nat} (hdigit : digit ≤ 10) :
    digit ≤ ⌊x * 10⌋₊ - 10 * ⌊x⌋₊ ↔ (digit : ℚ) / 10 ≤ frac x := by
  have hten : 10 * ⌊x⌋₊ ≤ ⌊x * 10⌋₊ := by
    apply Nat.le_floor
    push_cast
    have hle := Nat.floor_le hx
    linarith
  rw [Nat.le_sub_iff_add_le hten, Nat.le_floor_iff (by positivity)]
  unfold frac
  push_cast
  constructor
  · intro h
    linarith
  · intro h
    linarith

theorem exists_greatest {p : Nat → Prop} (n : Nat) (hzero : p 0) :
    ∃ s, IsGreatest {s | s ≤ n ∧ p s} s := by
  classical
  refine ⟨Nat.findGreatest p n, ⟨Nat.findGreatest_le n, ?_⟩, ?_⟩
  · exact Nat.findGreatest_spec (Nat.zero_le n) hzero
  · rintro s ⟨hs, hp⟩
    exact Nat.le_findGreatest hs hp

end Pnet.Lib.Rounding
