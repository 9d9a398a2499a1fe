import Mathlib.FieldTheory.Finite.Basic
import Pnet.Support.BigNumBytes
import Pnet.Support.BigNumMul

/-! Powers of numbers in byte arrays, most significant byte first, with which `engine/lib_crypt.c`
serves RSA. Arrays are taken to be there, but for a modulus. -/
namespace Pnet.Engine.CryptoMethods
open Pnet.Lib Pnet.Lib.BigEndian Pnet.Support

/-- `BigNumToByteArray`; `none` when the array does not get the length that is written to it. -/
def bigNumToByteArray (x : Option ILBigNum) : Option (List ILUInt8) :=
  x.bind fun x =>
    if (ilBigNumByteCount x).toInt = (ilBigNumToBytes x).length then some (ilBigNumToBytes x)
    else none

/-- `_IL_CryptoMethods_NumPow` -/
def numPow (fuel : Nat) (x y : List ILUInt8) (modulus : Option (List ILUInt8)) :
    Option (List ILUInt8) :=
  bigNumToByteArray
    (ilBigNumPow fuel (ilBigNumFromBytes x) (ilBigNumFromBytes y) (modulus.map ilBigNumFromBytes))

/-! ### Arrays and numbers -/

/-- Short enough for its words and their bytes to be counted. -/
def Short (bytes : List ILUInt8) : Prop := bytes.length + 8 ≤ 2 ^ 31

instance (bytes : List ILUInt8) : Decidable (Short bytes) := inferInstanceAs (Decidable (_ ≤ _))

variable {bytes x y modulus : List ILUInt8}

theorem fromBytes_spec (h : Short bytes) : (ilBigNumFromBytes bytes).Normalized ∧
    (ilBigNumFromBytes bytes).toInt = value bytes ∧
      (ilBigNumFromBytes bytes).size + 2 ≤ 2 ^ 29 := by
  unfold Short at h
  obtain ⟨words, hlength, hvalue, heq⟩ := @fromBytes_eq bytes (by omega)
  have htrim := Radix.length_trim_le words.reverse
  rw [List.length_reverse] at htrim
  rw [heq]
  refine ⟨normalized_normalizeBigNum _, ?_, ?_⟩
  · rw [toInt_normalizeBigNum, toInt_of_not_neg rfl, ← hvalue]
    rfl
  · change (Radix.trim words.reverse).length + 2 ≤ 2 ^ 29
    omega

/-- A number below another one has no more words. -/
theorem size_le_of_residue {num modulus : ILBigNum} (h : modulus.Residue num) :
    num.size ≤ modulus.size := by
  have hneg := neg_eq_false_of_nonneg h.normalized h.nonneg
  by_contra hlt
  have hpow := (Radix.pow_le_value_iff h.normalized.1 modulus.size).2 (Nat.lt_of_not_le hlt)
  have hbound : Radix.value modulus.words < (2 ^ 32) ^ modulus.size := Radix.value_lt modulus.words
  have hless := h.lt
  rw [toInt_of_not_neg hneg] at hless
  unfold ILBigNum.toInt at hless
  split_ifs at hless <;> omega

theorem toByteArray_residue {num : ILBigNum} (hshort : Short modulus)
    (h : (ilBigNumFromBytes modulus).Residue num) :
    ∃ result, bigNumToByteArray (some num) = some result ∧ Short result ∧
      Encodes result num.toInt.toNat := by
  have hsize := (fromBytes_spec hshort).2.2
  have hle := size_le_of_residue h
  have hvalue : num.toInt.toNat = Radix.value num.words := by
    rw [toInt_of_not_neg (neg_eq_false_of_nonneg h.normalized h.nonneg), Int.toNat_natCast]
  have hencodes := toBytes_encodes h.normalized.1
  refine ⟨ilBigNumToBytes num, if_pos (byteCount_eq (by omega)), ?_, hvalue ▸ hencodes⟩
  unfold Short
  by_cases hnil : num.words = []
  · have hzero := hencodes.shortest [0#8] (by simp) (by rw [hnil]; rfl)
    exact Nat.le_trans (Nat.add_le_add_right hzero 8) (by decide)
  · have hlength := length_flatMap_wordBytes num.words.reverse
    rw [List.length_reverse] at hlength
    have hpos : 0 < num.words.length := List.length_pos_of_ne_nil hnil
    have hshortest := hencodes.shortest (num.words.reverse.flatMap Support.wordBytes)
      (fun hempty => by rw [hempty, List.length_nil] at hlength; omega)
      ((value_flatMap_wordBytes _).trans (by rw [value, List.reverse_reverse]))
    unfold ILBigNum.size at hle hsize
    omega

/-! ### What is computed -/

/-- The array is the shortest one for the number, and can be used again. -/
def Gives (result : Option (List ILUInt8)) (n : Nat) : Prop :=
  ∃ bytes, result = some bytes ∧ Short bytes ∧ Encodes bytes n

theorem gives_residue {result : Option ILBigNum} {num : ILBigNum} {n : Nat} (hm : Short modulus)
    (hresult : result = some num) (hnum : (ilBigNumFromBytes modulus).Residue num)
    (hn : num.toInt = n) : Gives (bigNumToByteArray result) n := by
  obtain ⟨bytes, hbytes, hshort, hencodes⟩ := toByteArray_residue hm hnum
  rw [hn, Int.toNat_natCast] at hencodes
  exact ⟨bytes, by rw [hresult, hbytes], hshort, hencodes⟩

theorem gives_numPow (hx : Short x) (hy : Short y) (hm : Short modulus) (hone : 1 < value modulus)
    (fuel : Nat) : Gives (numPow fuel x y (some modulus)) (value x ^ value y % value modulus) := by
  obtain ⟨hmnorm, hmvalue, -⟩ := fromBytes_spec hm
  obtain ⟨hxnorm, hxvalue, -⟩ := fromBytes_spec hx
  obtain ⟨hynorm, hyvalue, -⟩ := fromBytes_spec hy
  have hyneg := neg_eq_false_of_nonneg hynorm (by omega)
  rw [toInt_of_not_neg hyneg, Int.natCast_inj] at hyvalue
  obtain ⟨power, hpow, hres, hvalue⟩ := ilBigNumPow_spec hmnorm (by omega) (ilBigNumFromBytes x)
    (ilBigNumFromBytes y) hxnorm hyneg (.inl (by omega)) fuel
  refine gives_residue hm hpow hres ?_
  rw [hvalue, hxvalue, hmvalue, hyvalue]
  push_cast
  rfl

/-! ### RSA -/

theorem pow_modEq_self {p k n : Nat} (hp : p.Prime) (hpos : 0 < k) (hk : k ≡ 1 [MOD p - 1]) :
    n ^ k ≡ n [MOD p] := by
  by_cases hdvd : p ∣ n
  · have hzero := (Nat.modEq_zero_iff_dvd).2 hdvd
    exact ((Nat.modEq_zero_iff_dvd).2 (hdvd.trans (dvd_pow_self n hpos.ne'))).trans hzero.symm
  · obtain ⟨j, hj⟩ := (Nat.modEq_iff_dvd' hpos).1 hk.symm
    have hfermat := Nat.ModEq.pow_totient ((hp.coprime_iff_not_dvd.2 hdvd).symm)
    rw [Nat.totient_prime hp] at hfermat
    calc n ^ k = n * (n ^ (p - 1)) ^ j := by
          rw [← pow_mul, ← hj, ← pow_succ', Nat.sub_add_cancel hpos]
      _ ≡ n * 1 ^ j [MOD p] := (hfermat.pow j).mul_left n
      _ = n := by rw [one_pow, mul_one]

/-- A number that is raised to one exponent and then to the other comes back. -/
theorem numPow_numPow {p q : Nat} {e d : List ILUInt8} (hp : p.Prime) (hq : q.Prime) (hne : p ≠ q)
    (hx : Short x) (he : Short e) (hd : Short d) (hm : Short modulus)
    (hpq : value modulus = p * q) (hlt : value x < value modulus)
    (hinv : value e * value d ≡ 1 [MOD (p - 1) * (q - 1)]) (fuel : Nat) :
    ∃ cipher, numPow fuel x e (some modulus) = some cipher ∧
      Gives (numPow fuel cipher d (some modulus)) (value x) := by
  have hone : 1 < value modulus := hpq ▸ Nat.one_lt_mul_iff.2 ⟨hp.pos, hq.pos, .inl hp.one_lt⟩
  obtain ⟨cipher, hcipher, hshort, hencodes⟩ := gives_numPow hx he hm hone fuel
  refine ⟨cipher, hcipher, ?_⟩
  have hpos : 0 < value e * value d := Nat.pos_of_ne_zero fun hzero => by
    have hunit := Nat.dvd_one.1 (Nat.modEq_zero_iff_dvd.1 (hzero ▸ hinv).symm)
    have hleft := Nat.eq_one_of_mul_eq_one_right hunit
    have hright := Nat.eq_one_of_mul_eq_one_left hunit
    omega
  have hback := gives_numPow hshort hd hm hone fuel
  have hmod : value x ^ (value e * value d) ≡ value x [MOD value modulus] := by
    rw [hpq, ← Nat.modEq_and_modEq_iff_modEq_mul ((Nat.coprime_primes hp hq).2 hne)]
    exact ⟨pow_modEq_self hp hpos (hinv.of_mul_right _), pow_modEq_self hq hpos (hinv.of_mul_left _)⟩
  rwa [hencodes.value, ← Nat.pow_mod, ← pow_mul, hmod, Nat.mod_eq_of_lt hlt] at hback

/-- Eleven times thirteen, with the exponents 7 and 103. -/
theorem numPow_numPow_bytes : ∃ cipher, numPow 0 [9] [7] (some [143]) = some cipher ∧
    Gives (numPow 0 cipher [103] (some [143])) 9 :=
  numPow_numPow (p := 11) (q := 13) (by decide) (by decide) (by decide) (by decide) (by decide)
    (by decide) (by decide) (by decide) (by decide) (by decide) 0

end Pnet.Engine.CryptoMethods
