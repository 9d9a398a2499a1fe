import Pnet.Support.DecimalDiv

/-! Conversions of `support/decimal.c` between decimals and integers. -/
namespace Pnet.Support
open Lib.Bits Lib.Extension

def ilDecimalFromInt32 (intValue : ILInt32) : ILDecimal :=
  if 0 ≤ intValue.toInt then ⟨0, 0, 0, intValue⟩ else ⟨0x80000000, 0, 0, -intValue⟩

def ilDecimalFromUInt32 (intValue : ILUInt32) : ILDecimal := ⟨0, 0, 0, intValue⟩

def ilDecimalFromInt64 (intValue : ILInt64) : ILDecimal :=
  if 0 ≤ intValue.toInt then
    ⟨0, 0, (intValue.sshiftRight 32).setWidth 32, intValue.setWidth 32⟩
  else
    ⟨0x80000000, 0, ((-intValue).sshiftRight 32).setWidth 32, (-intValue).setWidth 32⟩

def ilDecimalFromUInt64 (intValue : ILUInt64) : ILDecimal :=
  ⟨0, 0, (intValue >>> 32).setWidth 32, intValue.setWidth 32⟩

/-- The two lower words of a decimal. -/
def ILDecimal.lowWords (value : ILDecimal) : ILUInt64 :=
  value.middle.setWidth 64 <<< 32 ||| value.low.setWidth 64

def ilDecimalToInt64 (value : ILDecimal) : Option ILInt64 :=
  if value.getPt ≠ 0 then none
  else if value.isNeg then
    if value.high ≠ 0 ∨ value.middle > 0x80000000 then none else some (-value.lowWords)
  else if value.high ≠ 0 ∨ value.middle ≥ 0x80000000 then none
  else some value.lowWords

def ilDecimalToUInt64 (value : ILDecimal) : Option ILUInt64 :=
  if value.getPt ≠ 0 ∨ value.isNeg then none
  else if value.high ≠ 0 then none
  else some value.lowWords

/-! ### The decimal of an integer -/

/-- The decimal for an integer of at most 96 bits: no fraction, and zero has no sign. -/
def decimalOfInt (n : Int) : ILDecimal where
  flags := if n < 0 then 0x80000000 else 0
  high := BitVec.ofNat 32 (n.natAbs / 2 ^ 64)
  middle := BitVec.ofNat 32 (n.natAbs / 2 ^ 32)
  low := BitVec.ofNat 32 n.natAbs

/-- A decimal without its fraction. -/
def integerPart (d : ILDecimal) : Int :=
  if d.toRat < 0 then -⌊-d.toRat⌋ else ⌊d.toRat⌋

theorem natAbs_toInt_neg {w : Nat} {x : BitVec w} (hneg : ¬0 ≤ x.toInt) :
    x.toInt.natAbs = (-x).toNat := by
  have hlt := x.isLt
  rw [BitVec.toNat_neg]
  rw [BitVec.toInt_eq_toNat_cond] at hneg ⊢
  split at hneg
  · omega
  case isFalse hhigh =>
    have hmod : (2 ^ w - x.toNat) % 2 ^ w = 2 ^ w - x.toNat := Nat.mod_eq_of_lt (by omega)
    rw [if_neg hhigh, hmod]
    omega

theorem ilDecimalFromUInt32_eq (x : ILUInt32) : ilDecimalFromUInt32 x = decimalOfInt x.toNat := by
  have hlt := x.isLt
  have hhigh : x.toNat / 2 ^ 64 = 0 := Nat.div_eq_of_lt (by omega)
  have hmiddle : x.toNat / 2 ^ 32 = 0 := Nat.div_eq_of_lt hlt
  rw [decimalOfInt, Int.natAbs_natCast, hhigh, hmiddle, BitVec.ofNat_toNat, BitVec.setWidth_eq,
    if_neg (by omega)]
  rfl

theorem ilDecimalFromUInt64_eq (x : ILUInt64) : ilDecimalFromUInt64 x = decimalOfInt x.toNat := by
  have hlt := x.isLt
  have hhigh : x.toNat / 2 ^ 64 = 0 := Nat.div_eq_of_lt hlt
  have hmiddle : (x >>> 32).setWidth 32 = BitVec.ofNat 32 (x.toNat / 2 ^ 32) := by
    apply BitVec.eq_of_toNat_eq
    rw [toNat_setWidth_ushiftRight, BitVec.toNat_ofNat]
  rw [decimalOfInt, Int.natAbs_natCast, hhigh, ← hmiddle, BitVec.ofNat_toNat, if_neg (by omega)]
  rfl

theorem ilDecimalFromInt32_eq (x : ILInt32) : ilDecimalFromInt32 x = decimalOfInt x.toInt := by
  by_cases hnonneg : 0 ≤ x.toInt
  · have hnat := toNat_of_nonneg hnonneg
    rw [ilDecimalFromInt32, if_pos hnonneg, ← Int.toNat_of_nonneg hnonneg, ← hnat]
    exact ilDecimalFromUInt32_eq x
  · have hunsigned := ilDecimalFromUInt32_eq (-x)
    rw [ilDecimalFromUInt32, decimalOfInt, Int.natAbs_natCast, ILDecimal.mk.injEq] at hunsigned
    rw [ilDecimalFromInt32, if_neg hnonneg, decimalOfInt, natAbs_toInt_neg hnonneg,
      if_pos (by omega), ILDecimal.mk.injEq]
    exact ⟨rfl, hunsigned.2⟩

theorem ilDecimalFromInt64_eq (x : ILInt64) : ilDecimalFromInt64 x = decimalOfInt x.toInt := by
  have shifted := fun y : ILInt64 => setWidth_sshiftRight y 32 (n := 32) (by decide)
  by_cases hnonneg : 0 ≤ x.toInt
  · have hnat := toNat_of_nonneg hnonneg
    rw [ilDecimalFromInt64, if_pos hnonneg, ← Int.toNat_of_nonneg hnonneg, ← hnat, shifted]
    exact ilDecimalFromUInt64_eq x
  · have hunsigned := ilDecimalFromUInt64_eq (-x)
    rw [ilDecimalFromUInt64, decimalOfInt, Int.natAbs_natCast, ILDecimal.mk.injEq] at hunsigned
    rw [ilDecimalFromInt64, if_neg hnonneg, decimalOfInt, natAbs_toInt_neg hnonneg,
      if_pos (by omega), ILDecimal.mk.injEq, shifted]
    exact ⟨rfl, hunsigned.2⟩

/-! ### The integer of a decimal -/

theorem mantissa_truncate (d : ILDecimal) : (ilDecimalTruncate d).mantissa = ⌊d.absRat⌋₊ := by
  have hvalue := ILDecimal.toRat_truncate d
  rw [ILDecimal.toRat, ILDecimal.isNeg_truncate, ILDecimal.getPt_truncate, pow_zero,
    div_one] at hvalue
  have hsign : ILDecimal.sign d.isNeg ≠ 0 := by cases d.isNeg <;> simp [ILDecimal.sign]
  exact_mod_cast mul_left_cancel₀ hsign hvalue

theorem integerPart_eq (d : ILDecimal) :
    integerPart d = if d.isNeg then -((ilDecimalTruncate d).mantissa : Int)
      else (ilDecimalTruncate d).mantissa := by
  have hnonneg := ILDecimal.absRat_nonneg d
  have hrat : d.toRat = ILDecimal.sign d.isNeg * d.absRat := rfl
  have hfloor : ((⌊d.absRat⌋₊ : Nat) : Int) = ⌊d.absRat⌋ := Int.natCast_floor_eq_floor hnonneg
  rw [mantissa_truncate, hfloor, integerPart, hrat]
  cases d.isNeg with
  | false => simp [ILDecimal.sign, hnonneg]
  | true =>
    rcases hnonneg.eq_or_lt with hzero | hpos
    · simp [ILDecimal.sign, ← hzero]
    · simp [ILDecimal.sign, hpos]

theorem mantissa_words (d : ILDecimal) :
    d.mantissa = d.high.toNat * 2 ^ 64 + d.middle.toNat * 2 ^ 32 + d.low.toNat := by
  simp only [ILDecimal.mantissa, ILDecimal.words, Lib.BigEndian.value_cons,
    Lib.BigEndian.value_nil, List.length_cons, List.length_nil]
  ring

theorem toNat_lowWords (d : ILDecimal) :
    d.lowWords.toNat = d.middle.toNat * 2 ^ 32 + d.low.toNat := by
  have hlt := d.middle.isLt
  rw [ILDecimal.lowWords, toNat_shiftIn, toNat_word64, Nat.mod_eq_of_lt hlt]

/-- The two lower words are the mantissa where the upper one is zero. -/
theorem ofNat_mantissa {d : ILDecimal} (hhigh : d.high = 0) :
    d.lowWords = BitVec.ofNat 64 d.mantissa := by
  apply BitVec.eq_of_toNat_eq
  have hmiddle := d.middle.isLt
  have hlow := d.low.isLt
  have hzero : d.high.toNat = 0 := congrArg BitVec.toNat hhigh
  rw [BitVec.toNat_ofNat, mantissa_words, toNat_lowWords, hzero, Nat.mod_eq_of_lt (by omega)]
  omega

theorem high_eq_zero_iff (d : ILDecimal) : d.high = 0 ↔ d.mantissa < 2 ^ 64 := by
  have hmiddle := d.middle.isLt
  have hlow := d.low.isLt
  rw [mantissa_words, ← BitVec.toNat_inj]
  change d.high.toNat = 0 ↔ _
  omega

theorem middle_lt_iff {d : ILDecimal} (hhigh : d.high = 0) :
    d.middle < 0x80000000 ↔ d.mantissa < 2 ^ 63 := by
  have hlow := d.low.isLt
  have hzero : d.high.toNat = 0 := congrArg BitVec.toNat hhigh
  rw [mantissa_words, hzero, BitVec.lt_def]
  change d.middle.toNat < 2147483648 ↔ _
  omega

theorem middle_le_iff {d : ILDecimal} (hhigh : d.high = 0) :
    d.middle ≤ 0x80000000 ↔ d.mantissa < 2 ^ 63 + 2 ^ 32 := by
  have hlow := d.low.isLt
  have hzero : d.high.toNat = 0 := congrArg BitVec.toNat hhigh
  rw [mantissa_words, hzero, BitVec.le_def]
  change d.middle.toNat ≤ 2147483648 ↔ _
  omega

/-- The test of a negative value lets more than the least integer pass. -/
theorem ilDecimalToInt64_truncate (d : ILDecimal) : ilDecimalToInt64 (ilDecimalTruncate d) =
    if -2 ^ 63 - 2 ^ 32 < integerPart d ∧ integerPart d < 2 ^ 63 then
      some (BitVec.ofInt 64 (integerPart d))
    else none := by
  rw [ilDecimalToInt64, if_neg (by simp [ILDecimal.getPt_truncate]), ILDecimal.isNeg_truncate,
    integerPart_eq]
  generalize ilDecimalTruncate d = e
  have hlarge := high_eq_zero_iff e
  by_cases hhigh : e.high = 0
  · have hlt := hlarge.1 hhigh
    cases d.isNeg with
    | false =>
      simp only [Bool.false_eq_true, if_false, ne_eq, hhigh, not_true_eq_false, false_or,
        ofNat_mantissa hhigh, ge_iff_le, ← BitVec.not_lt, middle_lt_iff hhigh, BitVec.ofInt_natCast]
      split <;> rw [eq_comm]
      · exact if_neg (by omega)
      · exact if_pos (by omega)
    | true =>
      simp only [if_true, ne_eq, hhigh, not_true_eq_false, false_or, ofNat_mantissa hhigh,
        gt_iff_lt, ← BitVec.not_le, middle_le_iff hhigh, BitVec.ofInt_neg, BitVec.ofInt_natCast]
      split <;> rw [eq_comm]
      · exact if_neg (by omega)
      · exact if_pos (by omega)
  · have hle : ¬e.mantissa < 2 ^ 64 := fun hlt => hhigh (hlarge.2 hlt)
    cases d.isNeg with
    | false =>
      simp only [Bool.false_eq_true, if_false, ne_eq, hhigh, not_false_eq_true, true_or, if_true]
      exact (if_neg (by omega)).symm
    | true =>
      simp only [if_true, ne_eq, hhigh, not_false_eq_true, true_or]
      exact (if_neg (by omega)).symm

theorem ilDecimalToUInt64_truncate (d : ILDecimal) : ilDecimalToUInt64 (ilDecimalTruncate d) =
    if !d.isNeg ∧ integerPart d < 2 ^ 64 then some (BitVec.ofInt 64 (integerPart d))
    else none := by
  rw [ilDecimalToUInt64, ILDecimal.isNeg_truncate, ILDecimal.getPt_truncate, integerPart_eq]
  generalize ilDecimalTruncate d = e
  have hlarge := high_eq_zero_iff e
  cases d.isNeg with
  | true => simp
  | false =>
    by_cases hhigh : e.high = 0
    · have hlt := hlarge.1 hhigh
      simp [hhigh, ofNat_mantissa hhigh]
      omega
    · have hle : ¬e.mantissa < 2 ^ 64 := fun hlt => hhigh (hlarge.2 hlt)
      simp only [Bool.false_eq_true, if_false, ne_eq, hhigh, not_false_eq_true, not_true_eq_false,
        or_self, if_true, Bool.not_false, true_and]
      exact (if_neg (by omega)).symm

end Pnet.Support
