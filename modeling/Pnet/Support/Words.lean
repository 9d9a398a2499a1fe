import Pnet.CTypes
import Pnet.Lib.Bits

/-! Words inside of double words, as the arithmetic on arrays of words has them. -/
namespace Pnet.Support
open Pnet.Lib

theorem toNat_word64 (x : ILUInt32) : (x.setWidth 64 : ILUInt64).toNat = x.toNat := by
  have hlt : x.toNat < 2 ^ 32 := x.isLt
  rw [BitVec.toNat_setWidth, Nat.mod_eq_of_lt (by omega)]

theorem mul_word_le (x y : ILUInt32) : x.toNat * y.toNat ≤ (2 ^ 32 - 1) * (2 ^ 32 - 1) := by
  have hx : x.toNat < 2 ^ 32 := x.isLt
  have hy : y.toNat < 2 ^ 32 := y.isLt
  exact Nat.mul_le_mul (by omega) (by omega)

theorem toNat_low (temp : ILUInt64) : (temp.setWidth 32 : ILUInt32).toNat = temp.toNat % 2 ^ 32 :=
  BitVec.toNat_setWidth _ _

theorem toNat_high (temp : ILUInt64) : (temp >>> 32).toNat = temp.toNat / 2 ^ 32 := by
  rw [BitVec.toNat_ushiftRight, Nat.shiftRight_eq_div_pow]

/-- `(temp << 32) | word` drops everything above the low word of `temp`. -/
theorem toNat_shiftIn (temp : ILUInt64) (x : ILUInt32) :
    ((temp <<< 32) ||| x.setWidth 64).toNat = temp.toNat % 2 ^ 32 * 2 ^ 32 + x.toNat := by
  have hx : x.toNat < 2 ^ 32 := x.isLt
  have hx64 := toNat_word64 x
  have hshift : (temp <<< 32).toNat = temp.toNat % 2 ^ 32 * 2 ^ 32 := by
    rw [BitVec.toNat_shiftLeft, Nat.shiftLeft_eq]
    omega
  rw [Bits.toNat_or_low _ _ 32 (by rw [hshift]; omega) (by omega), hshift, hx64]

/-- `temp` is one word of the running product; it never overflows. -/
theorem toNat_mulAdd (temp : ILUInt64) (y d : ILUInt32) (htemp : temp.toNat < 2 ^ 32) :
    (temp + y.setWidth 64 * d.setWidth 64).toNat = temp.toNat + d.toNat * y.toNat := by
  have hmul := mul_word_le d y
  rw [BitVec.toNat_add, BitVec.toNat_mul, toNat_word64, toNat_word64, Nat.mul_comm y.toNat]
  rw [Nat.mod_eq_of_lt (show d.toNat * y.toNat < 2 ^ 64 by omega), Nat.mod_eq_of_lt (by omega)]

end Pnet.Support
