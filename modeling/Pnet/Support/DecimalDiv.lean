import Mathlib.Data.Nat.Cast.Field
import Mathlib.Tactic.LinearCombination
import Pnet.Support.DecimalCanonical
import Pnet.Support.DecimalDivide

/-! Quotients and remainders of decimals, where the division of the mantissas is right. -/
namespace Pnet.Support.ILDecimal
open Pnet.Lib

variable {a b d : ILDecimal} {roundMode : RoundMode} {x : ℚ}

theorem absRat_nonneg (d : ILDecimal) : 0 ≤ d.absRat := by
  unfold absRat
  positivity

theorem abs_toRat (d : ILDecimal) : |d.toRat| = d.absRat := abs_sign_mul d.isNeg (absRat_nonneg d)

theorem absRat_pos (hd : d.mantissa ≠ 0) : 0 < d.absRat := by
  have hpos : (0 : ℚ) < d.mantissa := by exact_mod_cast Nat.pos_of_ne_zero hd
  unfold absRat
  positivity

theorem sign_xor (x y : Bool) : sign (x ^^ y) = sign x * sign y := by
  cases x <;> cases y <;> simp [sign]

theorem sign_div (x y : Bool) : sign x / sign y = sign (x ^^ y) := by
  cases x <;> cases y <;> simp [sign]

theorem toRat_div (a b : ILDecimal) :
    a.toRat / b.toRat = sign (a.isNeg ^^ b.isNeg) * (a.absRat / b.absRat) := by
  rw [← sign_div]
  exact mul_div_mul_comm _ _ _ _

theorem abs_toRat_div (a b : ILDecimal) : |a.toRat / b.toRat| = a.absRat / b.absRat := by
  rw [abs_div, abs_toRat, abs_toRat]

/-! ### Numbers that a decimal can have -/

def Representable (x : ℚ) : Prop := ∃ s ≤ 28, ∃ m : Nat, m < 2 ^ 96 ∧ |x| * 10 ^ s = m

theorem Representable.lucky (h : Representable x) (roundMode : RoundMode) :
    RoundsTo roundMode |x| (some |x|) ∧ ¬Unlucky roundMode |x| := by
  obtain ⟨s, hs, m, hm, heq⟩ := h
  exact exact_roundsTo roundMode heq hs hm (abs_nonneg x)

/-- A representable number is its own rounding. -/
theorem Rounded.eq_of_representable {result : Option ILDecimal} (h : Rounded roundMode x result)
    (hx : Representable x) : ∃ d, result = some d ∧ d.toRat = x := by
  obtain ⟨s, hs, heq⟩ := (hx.lucky roundMode).1
  cases result with
  | none => exact absurd hs.1.2 (h s hs.1.1)
  | some d =>
    obtain ⟨s', hs', hd⟩ := h
    refine ⟨d, rfl, ?_⟩
    rw [hd, ← hs.unique hs', ← heq, sign_mul_abs]

/-! ### Quotients -/

theorem ilDecimalDiv_eq (hb : b.getPt ≤ 28) {quotient : List ILUInt32}
    (hquotient : divide a b = some quotient) :
    ilDecimalDiv a b roundMode =
      (normalize quotient ((a.getPt + 29 - b.getPt : Nat) : Int) roundMode).map
        (build (a.isNeg ^^ b.isNeg)) := by
  have hdecpt : (a.getPt : Int) - b.getPt + 29 = ((a.getPt + 29 - b.getPt : Nat) : Int) := by omega
  unfold ilDecimalDiv
  rw [hquotient, ← hdecpt]
  rfl

/-- The quotient with the places it is divided to is that of the mantissas. -/
theorem absRat_div_places (hb : b.getPt ≤ 28) (hne : b.mantissa ≠ 0) :
    a.absRat / b.absRat * 10 ^ (a.getPt + 29 - b.getPt) =
      ((a.mantissa * 10 ^ 29 : Nat) : ℚ) / b.mantissa := by
  have hcast : (b.mantissa : ℚ) ≠ 0 := by exact_mod_cast hne
  have hpow : (10 : ℚ) ^ (a.getPt + 29 - b.getPt) * 10 ^ b.getPt = 10 ^ a.getPt * 10 ^ 29 := by
    rw [← pow_add, ← pow_add]
    congr 1
    omega
  unfold absRat
  push_cast
  field_simp
  linear_combination (a.mantissa : ℚ) * hpow

/-- Of a quotient that has fewer places than a decimal, and is below 2^96 then, nothing is
left. -/
def DigitsSuffice (a b : ILDecimal) : Prop :=
  a.getPt < b.getPt → a.mantissa * 10 ^ 29 / b.mantissa < 2 ^ 96 →
    b.mantissa ∣ a.mantissa * 10 ^ 29

/-- The shifted dividend has room, no digit of the quotient is estimated too large, and no
digits are missing. -/
structure DivSafe (a b : ILDecimal) : Prop where
  room : a.mantissa * 10 ^ 29 < 2 ^ 192
  estimates : EstimatesRight a b
  digits : DigitsSuffice a b

theorem div_rounded_iff (roundMode : RoundMode) (hb : b.getPt ≤ 28) (hne : b.mantissa ≠ 0) (hsafe : DivSafe a b) :
    Rounded roundMode (a.toRat / b.toRat) (ilDecimalDiv a b roundMode) ↔
      ¬Unlucky roundMode |a.toRat / b.toRat| := by
  obtain ⟨quotient, hquotient, hexact⟩ := divide_spec a hne
  have hvalue := (hexact hsafe.room).2 hsafe.estimates
  have hplaces := absRat_div_places (a := a) hb hne
  have hnonneg : 0 ≤ a.absRat / b.absRat := div_nonneg (absRat_nonneg a) (absRat_nonneg b)
  have hcast : (b.mantissa : ℚ) ≠ 0 := by exact_mod_cast hne
  rw [ilDecimalDiv_eq hb hquotient, toRat_div, abs_sign_mul _ hnonneg,
    rounded_iff _ hnonneg _ fun normalized h => normalize_normal h]
  apply normalize_roundsTo hnonneg
  · rw [hplaces, hvalue, Nat.floor_div_eq_div]
  · intro hreduces
    have hfits := hreduces.fits
    have huseful := hreduces.useful
    rw [hvalue, Nat.pow_zero, Nat.div_one] at hfits
    have hdvd : b.mantissa ∣ a.mantissa * 10 ^ 29 := hsafe.digits (by omega) (by omega)
    rw [hplaces, hvalue, Nat.cast_div hdvd hcast]

/-! ### Remainders -/

/-- The whole part, towards zero. -/
def trunc (x : ℚ) : ℚ := sign (x < 0) * ⌊|x|⌋₊

/-- The quotient is rounded to a number with the same whole part, and the product of this with
the divisor is a decimal. -/
structure RemSafe (roundMode : RoundMode) (a b : ILDecimal) : Prop where
  whole : ∃ q, RoundsTo roundMode |a.toRat / b.toRat| (some q) ∧
    ⌊q⌋₊ = ⌊|a.toRat / b.toRat|⌋₊
  product : Representable (b.toRat * trunc (a.toRat / b.toRat))

structure Remainder (a b r : ILDecimal) : Prop where
  eq : a.toRat = b.toRat * trunc (a.toRat / b.toRat) + r.toRat
  lt : |r.toRat| < |b.toRat|
  sign : r.toRat = 0 ∨ (r.toRat < 0 ↔ a.toRat < 0)

theorem toRat_truncate (d : ILDecimal) : (ilDecimalTruncate d).toRat = sign d.isNeg * ⌊d.absRat⌋₊ := by
  by_cases hpt : d.getPt = 0
  · have hwhole : d.absRat = d.mantissa := by
      unfold absRat
      rw [hpt, pow_zero, div_one]
    rw [truncate_of_getPt_eq hpt, hwhole, Nat.floor_natCast, ← hwhole]
    rfl
  · obtain ⟨_, hmantissa⟩ := truncate_spec hpt
    have hcast : d.absRat = (d.mantissa : ℚ) / ((10 ^ d.getPt : Nat) : ℚ) := by
      unfold absRat
      push_cast
      rfl
    unfold toRat
    rw [isNeg_truncate, getPt_truncate, hmantissa, pow_zero, div_one, hcast, Nat.floor_div_eq_div]

/-- The truncated quotient, from its rounding. -/
theorem toRat_truncate_rounded {q : ℚ} (hd : d.toRat = sign (x < 0) * q) (hq : 0 ≤ q)
    (hwhole : ⌊q⌋₊ = ⌊|x|⌋₊) : (ilDecimalTruncate d).toRat = trunc x := by
  have habs : d.absRat = q := by rw [← abs_toRat, hd, abs_sign_mul _ hq]
  unfold trunc
  rw [toRat_truncate, habs, hwhole]
  by_cases hzero : ⌊|x|⌋₊ = 0
  · rw [hzero, Nat.cast_zero, mul_zero, mul_zero]
  · have hne : q ≠ 0 := by
      rintro rfl
      rw [Nat.floor_zero] at hwhole
      exact hzero hwhole.symm
    have hsign : sign d.isNeg = sign (x < 0) := by
      apply mul_right_cancel₀ hne
      rw [← hd]
      unfold toRat
      rw [← habs]
      rfl
    rw [hsign]

/-- What is left of the magnitude of `a`. -/
def rest (a b : ILDecimal) : ℚ := a.absRat - b.absRat * ⌊a.absRat / b.absRat⌋₊

theorem rest_bounds (hb : b.mantissa ≠ 0) :
    0 ≤ rest a b ∧ rest a b < b.absRat ∧ rest a b ≤ a.absRat := by
  have hpos := absRat_pos hb
  have hle := Nat.floor_le (div_nonneg (absRat_nonneg a) (absRat_nonneg b))
  have hlt := Nat.lt_floor_add_one (a.absRat / b.absRat)
  rw [le_div_iff₀ hpos] at hle
  rw [div_lt_iff₀ hpos] at hlt
  have hmul : 0 ≤ b.absRat * (⌊a.absRat / b.absRat⌋₊ : ℚ) := by positivity
  unfold rest
  refine ⟨by linarith, by linarith, by linarith⟩

/-- The truncated quotient times the divisor has the sign of the dividend. -/
theorem mul_trunc (a b : ILDecimal) : b.toRat * trunc (a.toRat / b.toRat) =
    sign a.isNeg * (b.absRat * ⌊a.absRat / b.absRat⌋₊) := by
  have hnonneg : 0 ≤ a.absRat / b.absRat := div_nonneg (absRat_nonneg a) (absRat_nonneg b)
  unfold trunc
  rw [abs_toRat_div, toRat_div]
  by_cases hzero : a.absRat / b.absRat = 0
  · rw [hzero, Nat.floor_zero, Nat.cast_zero, mul_zero, mul_zero, mul_zero, mul_zero]
  · have hsign : sign b.isNeg * (sign a.isNeg * sign b.isNeg) = sign a.isNeg := by
      cases a.isNeg <;> cases b.isNeg <;> simp [sign]
    have hb : b.toRat = sign b.isNeg * b.absRat := rfl
    rw [sign_eq hnonneg hzero, sign_xor, hb]
    linear_combination (b.absRat * ⌊a.absRat / b.absRat⌋₊ : ℚ) * hsign

theorem sub_mul_trunc (a b : ILDecimal) :
    a.toRat - b.toRat * trunc (a.toRat / b.toRat) = sign a.isNeg * rest a b := by
  have ha : a.toRat = sign a.isNeg * a.absRat := rfl
  rw [mul_trunc, ha, ← mul_sub]
  rfl

theorem absRat_scaled (d : ILDecimal) {m : Nat} (hm : d.getPt ≤ m) :
    d.absRat * 10 ^ m = d.scaledTo m := by
  rw [← scaledTo_div d hm]
  field_simp

/-- The remainder has as many places as the operands, and a mantissa below one of theirs. -/
theorem representable_rest (ha : a.getPt ≤ 28) (hb : b.getPt ≤ 28) (hne : b.mantissa ≠ 0) :
    Representable (sign a.isNeg * rest a b) := by
  obtain ⟨hnonneg, hlt, hle⟩ := rest_bounds (a := a) hne
  have hscaledA := absRat_scaled a (le_max_left a.getPt b.getPt)
  have hscaledB := absRat_scaled b (le_max_right a.getPt b.getPt)
  have hpow : (0 : ℚ) < 10 ^ max a.getPt b.getPt := by positivity
  have hrest : rest a b * 10 ^ max a.getPt b.getPt =
      (a.scaledTo (max a.getPt b.getPt) : ℚ) -
        b.scaledTo (max a.getPt b.getPt) * ⌊a.absRat / b.absRat⌋₊ := by
    unfold rest
    rw [← hscaledA, ← hscaledB]
    ring
  have hfits : b.scaledTo (max a.getPt b.getPt) * ⌊a.absRat / b.absRat⌋₊ ≤
      a.scaledTo (max a.getPt b.getPt) := by
    have hscaled := mul_nonneg hnonneg hpow.le
    rw [hrest, sub_nonneg] at hscaled
    exact_mod_cast hscaled
  refine ⟨max a.getPt b.getPt, max_le ha hb, a.scaledTo (max a.getPt b.getPt) -
    b.scaledTo (max a.getPt b.getPt) * ⌊a.absRat / b.absRat⌋₊, ?_, ?_⟩
  · have hamantissa := mantissa_lt a
    have hbmantissa := mantissa_lt b
    rcases Nat.le_total b.getPt a.getPt with hba | hab
    · have hself : a.scaledTo (max a.getPt b.getPt) = a.mantissa := by
        unfold scaledTo
        rw [max_eq_left hba, Nat.sub_self, Nat.pow_zero, Nat.mul_one]
      omega
    · have hself : b.scaledTo (max a.getPt b.getPt) = b.mantissa := by
        unfold scaledTo
        rw [max_eq_right hab, Nat.sub_self, Nat.pow_zero, Nat.mul_one]
      have hless := mul_lt_mul_of_pos_right hlt hpow
      rw [hrest, hscaledB, hself, sub_lt_iff_lt_add] at hless
      have hcast : a.scaledTo (max a.getPt b.getPt) <
          b.mantissa + b.mantissa * ⌊a.absRat / b.absRat⌋₊ := by exact_mod_cast hless
      rw [hself]
      omega
  · rw [abs_sign_mul _ hnonneg, hrest]
    push_cast [Nat.cast_sub hfits]
    ring

theorem sign_mul_neg_iff {negative : Bool} {y : ℚ} (hy : 0 < y) :
    sign negative * y < 0 ↔ negative = true := by
  cases negative with
  | false => simp [sign, hy.le]
  | true => simp [sign, hy]

theorem ilDecimalRem_eq {quotient product : ILDecimal}
    (hquotient : ilDecimalDiv a b roundMode = some quotient)
    (hproduct : ilDecimalMul b (ilDecimalTruncate quotient) roundMode = some product) :
    ilDecimalRem a b roundMode = ilDecimalSub a product roundMode := by
  unfold ilDecimalRem
  rw [hquotient, Option.bind_eq_bind, Option.bind_some, hproduct, Option.bind_some]

theorem rem_spec (ha : a.getPt ≤ 28) (hb : b.getPt ≤ 28) (hne : b.mantissa ≠ 0)
    (hdiv : Rounded roundMode (a.toRat / b.toRat) (ilDecimalDiv a b roundMode))
    (hsafe : RemSafe roundMode a b) :
    ∃ r, ilDecimalRem a b roundMode = some r ∧ Remainder a b r := by
  obtain ⟨⟨q, ⟨s, hs, hq⟩, hwhole⟩, hproduct⟩ := hsafe
  obtain ⟨hnonneg, hlt, hle⟩ := rest_bounds (a := a) hne
  cases hquotient : ilDecimalDiv a b roundMode with
  | none =>
    rw [hquotient] at hdiv
    exact absurd hs.1.2 (hdiv s hs.1.1)
  | some quotient =>
    rw [hquotient] at hdiv
    obtain ⟨s', hs', hrounded⟩ := hdiv
    rw [← hs.unique hs', ← hq] at hrounded
    have hqnonneg : 0 ≤ q := by
      rw [hq]
      positivity
    have htrunc := toRat_truncate_rounded hrounded hqnonneg hwhole
    obtain ⟨temp, negative, hmul, hsigned⟩ := mul_signed b (ilDecimalTruncate quotient) roundMode
    rw [htrunc] at hsigned
    have hmulRounded := (normalize_rounded roundMode negative _ _ hsigned).2
      (hproduct.lucky roundMode).2
    rw [← hmul] at hmulRounded
    obtain ⟨product, hproductEq, hproductRat⟩ := hmulRounded.eq_of_representable hproduct
    obtain ⟨temp', negative', hsub, hsigned'⟩ :=
      sub_signed ha (canonical_mul hproductEq).le roundMode
    have hrest := representable_rest ha hb hne
    rw [hproductRat, sub_mul_trunc] at hsigned'
    have hsubRounded := (normalize_rounded roundMode negative' _ _ hsigned').2
      (hrest.lucky roundMode).2
    rw [← hsub] at hsubRounded
    obtain ⟨r, hr, hrRat⟩ := hsubRounded.eq_of_representable hrest
    refine ⟨r, (ilDecimalRem_eq hquotient hproductEq).trans hr, ?_⟩
    apply Remainder.mk
    · rw [hrRat, ← sub_mul_trunc, add_sub_cancel]
    · rw [hrRat, abs_sign_mul _ hnonneg, abs_toRat]
      exact hlt
    · rw [hrRat]
      by_cases hzero : rest a b = 0
      · exact Or.inl (by rw [hzero, mul_zero])
      · have hpos := lt_of_le_of_ne hnonneg (Ne.symm hzero)
        exact Or.inr ((sign_mul_neg_iff hpos).trans (sign_mul_neg_iff (hpos.trans_le hle)).symm)

/-! ### Quotients and remainders -/

end Pnet.Support.ILDecimal
