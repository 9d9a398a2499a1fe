import Mathlib.Tactic.Ring
import Pnet.CTypes
import Pnet.Lib.Bits

/-! The multiplications with an overflow check of `support/mul_long.c`. `none` is the result zero,
which leaves the product alone. Negation wraps, as it does on every machine the engine runs on. -/
namespace Pnet.Support.MulLong
open Pnet.Lib

/-- `(ILUInt32)(value >> 32)` -/
def highWord (value : ILUInt64) : ILUInt32 := (value >>> 32).setWidth 32

/-- `(ILUInt32)value` -/
def lowWord (value : ILUInt64) : ILUInt32 := value.setWidth 32

/-- `((ILUInt64)value1) * ((ILUInt64)value2)` -/
def mulWords (value1 value2 : ILUInt32) : ILUInt64 := value1.setWidth 64 * value2.setWidth 64

/-- `result1` to `result4`, the words of the product from the lowest on. -/
structure ProductWords where
  result1 : ILUInt32
  result2 : ILUInt32
  result3 : ILUInt32
  result4 : ILUInt32
deriving DecidableEq, Repr

/-- The sums of `ILUInt64MulOvf`, with the carry of each found by a comparison. -/
def productWords (value1 value2 : ILUInt64) : ProductWords :=
  let high1 := highWord value1
  let low1 := lowWord value1
  let high2 := highWord value2
  let low2 := lowWord value2
  let temp := mulWords low1 low2
  let result1 := lowWord temp
  let result2 := highWord temp
  let temp := mulWords low1 high2
  let orig := result2
  let result2 := result2 + lowWord temp
  let result3 := if result2 < orig then highWord temp + 1 else highWord temp
  let temp := mulWords high1 low2
  let orig := result2
  let result2 := result2 + lowWord temp
  let addend := if result2 < orig then highWord temp + 1 else highWord temp
  let orig := result3
  let result3 := result3 + addend
  let result4 : ILUInt32 := if result3 < orig then 1 else 0
  let temp := mulWords high1 high2
  let orig := result3
  let result3 := result3 + lowWord temp
  let result4 := if result3 < orig then result4 + (highWord temp + 1) else result4 + highWord temp
  ⟨result1, result2, result3, result4⟩

def ilUInt64MulOvf (value1 value2 : ILUInt64) : Option ILUInt64 :=
  let words := productWords value1 value2
  if words.result3 ≠ 0 ∨ words.result4 ≠ 0 then none
  else some ((words.result2.setWidth 64 <<< 32) ||| words.result1.setWidth 64)

def ilMaxInt64 : ILInt64 := 0x7FFFFFFFFFFFFFFF

/-- The magnitudes are multiplied, and one more of them is allowed below zero. -/
def ilInt64MulOvf (value1 value2 : ILInt64) : Option ILInt64 :=
  if 0 ≤ value1.toInt ∧ 0 ≤ value2.toInt then
    match ilUInt64MulOvf value1 value2 with
    | none => none
    | some temp => if ilMaxInt64 < temp then none else some temp
  else if 0 ≤ value1.toInt then
    match ilUInt64MulOvf value1 (-value2) with
    | none => none
    | some temp => if ilMaxInt64 + 1 < temp then none else some (-temp)
  else if 0 ≤ value2.toInt then
    match ilUInt64MulOvf (-value1) value2 with
    | none => none
    | some temp => if ilMaxInt64 + 1 < temp then none else some (-temp)
  else
    match ilUInt64MulOvf (-value1) (-value2) with
    | none => none
    | some temp => if ilMaxInt64 < temp then none else some temp

/-! ### Words -/

theorem toNat_words (value : ILUInt64) :
    (lowWord value).toNat + (highWord value).toNat * 2 ^ 32 = value.toNat := by
  have hhigh := Bits.toNat_setWidth_ushiftRight value 32 32
  have hlow : (lowWord value).toNat = value.toNat % 2 ^ 32 := BitVec.toNat_setWidth ..
  have hlt := value.isLt
  rw [highWord, hhigh, hlow]
  omega

theorem toNat_mulWords (value1 value2 : ILUInt32) :
    (mulWords value1 value2).toNat = value1.toNat * value2.toNat := by
  have hlt : value1.toNat * value2.toNat < 2 ^ 32 * 2 ^ 32 :=
    Nat.mul_lt_mul'' value1.isLt value2.isLt
  rw [mulWords, BitVec.toNat_mul, BitVec.toNat_setWidth_of_le (by decide),
    BitVec.toNat_setWidth_of_le (by decide)]
  exact Nat.mod_eq_of_lt hlt

/-- The upper word of a product has room for a carry. -/
theorem highWord_mulWords_lt (value1 value2 : ILUInt32) :
    (highWord (mulWords value1 value2)).toNat + 1 < 2 ^ 32 := by
  have hwords := toNat_words (mulWords value1 value2)
  have hle : value1.toNat * value2.toNat ≤ (2 ^ 32 - 1) * (2 ^ 32 - 1) :=
    Nat.mul_le_mul (Nat.le_sub_one_of_lt value1.isLt) (Nat.le_sub_one_of_lt value2.isLt)
  rw [toNat_mulWords] at hwords
  omega

/-- A sum of words is smaller than the first of them just when it has a carry. -/
theorem toNat_add_carry (x y : ILUInt32) :
    (x + y).toNat + (if x + y < x then 1 else 0) * 2 ^ 32 = x.toNat + y.toNat := by
  have hx := x.isLt
  have hy := y.isLt
  by_cases hcarry : x + y < x
  · rw [if_pos hcarry]
    rw [BitVec.lt_def, BitVec.toNat_add] at hcarry
    rw [BitVec.toNat_add]
    omega
  · rw [if_neg hcarry]
    rw [BitVec.lt_def, BitVec.toNat_add] at hcarry
    rw [BitVec.toNat_add]
    omega

theorem toNat_ite_succ (p : Prop) [Decidable p] {x : ILUInt32} (hx : x.toNat + 1 < 2 ^ 32) :
    (if p then x + 1 else x).toNat = x.toNat + if p then 1 else 0 := by
  split_ifs
  · rw [BitVec.toNat_add]
    exact Nat.mod_eq_of_lt hx
  · rfl

/-! ### The product -/

def ProductWords.toNat (words : ProductWords) : Nat :=
  words.result1.toNat + words.result2.toNat * 2 ^ 32 + words.result3.toNat * 2 ^ 64 +
    words.result4.toNat * 2 ^ 96

/-- No carry is lost: the four words are the exact product. -/
theorem toNat_productWords (value1 value2 : ILUInt64) :
    (productWords value1 value2).toNat = value1.toNat * value2.toNat := by
  have hproduct : value1.toNat * value2.toNat < 2 ^ 64 * 2 ^ 64 :=
    Nat.mul_lt_mul'' value1.isLt value2.isLt
  have hexpand : value1.toNat * value2.toNat =
      (lowWord value1).toNat * (lowWord value2).toNat +
        (lowWord value1).toNat * (highWord value2).toNat * 2 ^ 32 +
        (highWord value1).toNat * (lowWord value2).toNat * 2 ^ 32 +
        (highWord value1).toNat * (highWord value2).toNat * 2 ^ 64 := by
    rw [← toNat_words value1, ← toNat_words value2]
    ring
  rw [← toNat_mulWords, ← toNat_mulWords, ← toNat_mulWords, ← toNat_mulWords,
    ← toNat_words (mulWords (lowWord value1) (lowWord value2)),
    ← toNat_words (mulWords (lowWord value1) (highWord value2)),
    ← toNat_words (mulWords (highWord value1) (lowWord value2)),
    ← toNat_words (mulWords (highWord value1) (highWord value2))] at hexpand
  rw [hexpand] at hproduct ⊢
  have hroom2 := highWord_mulWords_lt (lowWord value1) (highWord value2)
  have hroom3 := highWord_mulWords_lt (highWord value1) (lowWord value2)
  dsimp only [productWords, ProductWords.toNat]
  generalize highWord (mulWords (lowWord value1) (lowWord value2)) = a1 at *
  generalize lowWord (mulWords (lowWord value1) (highWord value2)) = b0 at *
  generalize highWord (mulWords (lowWord value1) (highWord value2)) = b1 at *
  generalize lowWord (mulWords (highWord value1) (lowWord value2)) = c0 at *
  generalize highWord (mulWords (highWord value1) (lowWord value2)) = c1 at *
  generalize lowWord (mulWords (highWord value1) (highWord value2)) = d0 at *
  generalize highWord (mulWords (highWord value1) (highWord value2)) = d1 at *
  have hsum2 := toNat_add_carry a1 b0
  have hword3 := toNat_ite_succ (a1 + b0 < a1) hroom2
  generalize (if a1 + b0 < a1 then b1 + 1 else b1) = r3 at *
  have hsum2' := toNat_add_carry (a1 + b0) c0
  have haddend := toNat_ite_succ (a1 + b0 + c0 < a1 + b0) hroom3
  generalize (if a1 + b0 + c0 < a1 + b0 then c1 + 1 else c1) = addend at *
  have hsum3 := toNat_add_carry r3 addend
  have hsum3' := toNat_add_carry (r3 + addend) d0
  generalize (if a1 + b0 < a1 then 1 else 0 : Nat) = k1 at *
  generalize (if a1 + b0 + c0 < a1 + b0 then 1 else 0 : Nat) = k2 at *
  -- The carries into the highest word do not overflow it: the product has 128 bits.
  have hone : (1 : ILUInt32).toNat = 1 := rfl
  have hzero : (0 : ILUInt32).toNat = 0 := rfl
  split_ifs at hsum3 hsum3' ⊢
  · rw [BitVec.toNat_add 1, BitVec.toNat_add d1, hone]
    omega
  · rw [BitVec.toNat_add 0, BitVec.toNat_add d1, hone, hzero]
    omega
  · rw [BitVec.toNat_add 1, hone]
    omega
  · rw [BitVec.toNat_add 0, hzero]
    omega

theorem toNat_join (high low : ILUInt32) :
    ((high.setWidth 64 <<< 32) ||| low.setWidth 64 : ILUInt64).toNat =
      high.toNat * 2 ^ 32 + low.toNat := by
  have hhigh := high.isLt
  have hwide : (high.setWidth 64).toNat = high.toNat := BitVec.toNat_setWidth_of_le (by decide)
  have hwide' : (low.setWidth 64).toNat = low.toNat := BitVec.toNat_setWidth_of_le (by decide)
  have hshift := Bits.toNat_shiftLeft_of_lt (high.setWidth 64) 32 (by rw [hwide]; omega)
  rw [Bits.toNat_or_low _ _ 32 (by rw [hshift]; omega) (by rw [hwide']; exact low.isLt), hshift,
    hwide, hwide']

/-- What the multiplication gives, and when it gives nothing. -/
theorem ilUInt64MulOvf_eq (value1 value2 : ILUInt64) :
    ilUInt64MulOvf value1 value2 =
      if value1.toNat * value2.toNat < 2 ^ 64 then some (value1 * value2) else none := by
  have hproduct := toNat_productWords value1 value2
  have hjoin := toNat_join (productWords value1 value2).result2 (productWords value1 value2).result1
  unfold ilUInt64MulOvf
  unfold ProductWords.toNat at hproduct
  generalize productWords value1 value2 = words at *
  have h1 := words.result1.isLt
  have h2 := words.result2.isLt
  dsimp only
  by_cases hupper : words.result3 = 0 ∧ words.result4 = 0
  · have h3 : words.result3.toNat = 0 := by rw [hupper.1]; rfl
    have h4 : words.result4.toNat = 0 := by rw [hupper.2]; rfl
    have hfits : value1.toNat * value2.toNat < 2 ^ 64 := by omega
    rw [if_neg (by simp [hupper]), if_pos hfits]
    refine congrArg some (BitVec.eq_of_toNat_eq ?_)
    rw [hjoin, BitVec.toNat_mul, Nat.mod_eq_of_lt hfits]
    omega
  · have hne : words.result3.toNat ≠ 0 ∨ words.result4.toNat ≠ 0 := by
      rw [← BitVec.toNat_inj, ← BitVec.toNat_inj] at hupper
      exact not_and_or.mp hupper
    have hwide : ¬ value1.toNat * value2.toNat < 2 ^ 64 := by omega
    rw [if_pos (not_and_or.mp hupper), if_neg hwide]

/-! ### Signed products -/

theorem toNat_of_nonneg {value : ILInt64} (h : 0 ≤ value.toInt) :
    (value.toNat : Int) = value.toInt := by
  rw [Extension.toNat_of_nonneg h, Int.toNat_of_nonneg h]

/-- The magnitude of a negative value, of the least one too. -/
theorem toNat_neg_of_neg {value : ILInt64} (h : ¬ 0 ≤ value.toInt) :
    ((-value).toNat : Int) = -value.toInt := by
  have hlt := value.isLt
  rw [BitVec.toInt_eq_toNat_cond] at h ⊢
  rw [BitVec.toNat_neg]
  split_ifs at h ⊢ <;> omega

/-- Multiplying the magnitudes up to a limit. -/
theorem ilUInt64MulOvf_limit (value1 value2 limit : ILUInt64) (f : ILUInt64 → ILInt64) :
    (match ilUInt64MulOvf value1 value2 with
      | none => none
      | some temp => if limit < temp then none else some (f temp)) =
      if value1.toNat * value2.toNat ≤ limit.toNat then some (f (value1 * value2)) else none := by
  have hlimit := limit.isLt
  rw [ilUInt64MulOvf_eq]
  by_cases hfits : value1.toNat * value2.toNat < 2 ^ 64
  · have hexact : (value1 * value2).toNat = value1.toNat * value2.toNat := by
      rw [BitVec.toNat_mul, Nat.mod_eq_of_lt hfits]
    rw [if_pos hfits]
    dsimp only
    by_cases hle : value1.toNat * value2.toNat ≤ limit.toNat
    · have hlimit' : ¬ limit < value1 * value2 := by
        rw [BitVec.lt_def, hexact]
        exact Nat.not_lt.mpr hle
      rw [if_neg hlimit', if_pos hle]
    · have hlimit' : limit < value1 * value2 := by
        rw [BitVec.lt_def, hexact]
        exact Nat.lt_of_not_le hle
      rw [if_pos hlimit', if_neg hle]
  · rw [if_neg hfits, if_neg (by omega)]

/-- The signed range. -/
def FitsInt64 (value : Int) : Prop := -(2 ^ 63) ≤ value ∧ value < 2 ^ 63

instance (value : Int) : Decidable (FitsInt64 value) := inferInstanceAs (Decidable (_ ∧ _))

theorem ilInt64MulOvf_eq (value1 value2 : ILInt64) :
    ilInt64MulOvf value1 value2 =
      if FitsInt64 (value1.toInt * value2.toInt) then some (value1 * value2) else none := by
  have hmax : ilMaxInt64.toNat = 2 ^ 63 - 1 := rfl
  have hmax' : (ilMaxInt64 + 1).toNat = 2 ^ 63 := rfl
  unfold ilInt64MulOvf
  by_cases h1 : 0 ≤ value1.toInt <;> by_cases h2 : 0 ≤ value2.toInt
  · have hproduct : ((value1.toNat * value2.toNat : Nat) : Int) = value1.toInt * value2.toInt := by
      rw [Nat.cast_mul, toNat_of_nonneg h1, toNat_of_nonneg h2]
    have hnonneg := Int.mul_nonneg h1 h2
    have hiff : value1.toNat * value2.toNat ≤ ilMaxInt64.toNat ↔
        FitsInt64 (value1.toInt * value2.toInt) := by
      rw [hmax, FitsInt64]
      omega
    rw [if_pos ⟨h1, h2⟩, ilUInt64MulOvf_limit _ _ _ fun temp => temp]
    simp only [hiff]
  · have hproduct : ((value1.toNat * (-value2).toNat : Nat) : Int) =
        -(value1.toInt * value2.toInt) := by
      rw [Nat.cast_mul, toNat_of_nonneg h1, toNat_neg_of_neg h2, Int.mul_neg]
    have hnonpos : 0 ≤ value1.toInt * -value2.toInt := Int.mul_nonneg h1 (by omega)
    have hiff : value1.toNat * (-value2).toNat ≤ (ilMaxInt64 + 1).toNat ↔
        FitsInt64 (value1.toInt * value2.toInt) := by
      rw [hmax', FitsInt64]
      rw [Int.mul_neg] at hnonpos
      omega
    rw [if_neg fun h => h2 h.2, if_pos h1, ilUInt64MulOvf_limit _ _ _ fun temp => -temp]
    simp only [hiff, BitVec.mul_neg, BitVec.neg_neg]
  · have hproduct : (((-value1).toNat * value2.toNat : Nat) : Int) =
        -(value1.toInt * value2.toInt) := by
      rw [Nat.cast_mul, toNat_neg_of_neg h1, toNat_of_nonneg h2, Int.neg_mul]
    have hnonpos : 0 ≤ -value1.toInt * value2.toInt := Int.mul_nonneg (by omega) h2
    have hiff : (-value1).toNat * value2.toNat ≤ (ilMaxInt64 + 1).toNat ↔
        FitsInt64 (value1.toInt * value2.toInt) := by
      rw [hmax', FitsInt64]
      rw [Int.neg_mul] at hnonpos
      omega
    rw [if_neg fun h => h1 h.1, if_neg h1, if_pos h2, ilUInt64MulOvf_limit _ _ _ fun temp => -temp]
    simp only [hiff, BitVec.neg_mul, BitVec.neg_neg]
  · have hproduct : (((-value1).toNat * (-value2).toNat : Nat) : Int) =
        value1.toInt * value2.toInt := by
      rw [Nat.cast_mul, toNat_neg_of_neg h1, toNat_neg_of_neg h2, Int.neg_mul_neg]
    have hnonneg : 0 ≤ -value1.toInt * -value2.toInt := Int.mul_nonneg (by omega) (by omega)
    have hiff : (-value1).toNat * (-value2).toNat ≤ ilMaxInt64.toNat ↔
        FitsInt64 (value1.toInt * value2.toInt) := by
      rw [hmax, FitsInt64]
      rw [Int.neg_mul_neg] at hnonneg
      omega
    rw [if_neg fun h => h1 h.1, if_neg h1, if_neg h2, ilUInt64MulOvf_limit _ _ _ fun temp => temp]
    simp only [hiff, BitVec.neg_mul_neg]

/-! ### The exact product or nothing -/

theorem toInt_mul_of_fits {value1 value2 : ILInt64}
    (h : FitsInt64 (value1.toInt * value2.toInt)) :
    (value1 * value2).toInt = value1.toInt * value2.toInt := by
  unfold FitsInt64 at h
  rw [BitVec.toInt_mul]
  exact Int.bmod_eq_of_le (by omega) (by omega)

/-- Both multiplications succeed exactly when the product is in their range, and give it. -/
theorem mulOvf_exact (value1 value2 : BitVec 64) :
    ((ilUInt64MulOvf value1 value2).isSome = true ↔ value1.toNat * value2.toNat < 2 ^ 64) ∧
    (∀ product, ilUInt64MulOvf value1 value2 = some product →
      product.toNat = value1.toNat * value2.toNat) ∧
    ((ilInt64MulOvf value1 value2).isSome = true ↔ FitsInt64 (value1.toInt * value2.toInt)) ∧
    ∀ product, ilInt64MulOvf value1 value2 = some product →
      product.toInt = value1.toInt * value2.toInt := by
  rw [ilUInt64MulOvf_eq, ilInt64MulOvf_eq]
  refine ⟨Option.isSome_ite, fun product hproduct => ?_, Option.isSome_ite,
    fun product hproduct => ?_⟩
  · split_ifs at hproduct with h
    obtain rfl := Option.some.inj hproduct
    rw [BitVec.toNat_mul, Nat.mod_eq_of_lt h]
  · split_ifs at hproduct with h
    obtain rfl := Option.some.inj hproduct
    exact toInt_mul_of_fits h

end Pnet.Support.MulLong
