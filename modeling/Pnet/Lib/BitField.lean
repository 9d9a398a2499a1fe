import Mathlib.Data.BitVec

/-! Fields of `size` bits from `start` on in a word: writing them with a mask, and reading them
with shifts. -/
namespace Pnet.Lib.BitField

variable {n : Nat}

/-- The mask of the low bits, as it is computed by a shift. -/
def mask (n size : Nat) : BitVec n := (1#n <<< size) - 1#n

/-- The word with the low bits of `v` in the field. -/
def insert (w v mask : BitVec n) (start : Nat) : BitVec n :=
  (v &&& mask) <<< start ||| w &&& ~~~(mask <<< start)

variable {start size i : Nat}

theorem toNat_mask (hsize : size ≤ n) : (mask n size).toNat = 2 ^ size - 1 := by
  have hpow := Nat.pow_le_pow_right (show 0 < 2 by decide) hsize
  have hpos := Nat.two_pow_pos size
  rw [mask, BitVec.toNat_sub, BitVec.toNat_shiftLeft, BitVec.toNat_ofNat, Nat.shiftLeft_eq]
  obtain rfl | hlt := hsize.eq_or_lt
  · by_cases hzero : size = 0
    · subst hzero
      rfl
    · have hone : 1 % 2 ^ size = 1 := Nat.mod_eq_of_lt (Nat.one_lt_two_pow hzero)
      rw [hone, Nat.one_mul, Nat.mod_self, Nat.add_zero]
      exact Nat.mod_eq_of_lt (by omega)
  · have hless := Nat.pow_lt_pow_right (show 1 < 2 by decide) hlt
    have hone : 1 % 2 ^ n = 1 := Nat.mod_eq_of_lt (by omega)
    rw [hone, Nat.one_mul, Nat.mod_eq_of_lt hless]
    have hsum : 2 ^ n - 1 + 2 ^ size = 2 ^ size - 1 + 2 ^ n := by omega
    rw [hsum, Nat.add_mod_right, Nat.mod_eq_of_lt (by omega)]

theorem getLsbD_mask (hsize : size ≤ n) : (mask n size).getLsbD i = decide (i < size) := by
  rw [BitVec.getLsbD, toNat_mask hsize, Nat.testBit_two_pow_sub_one]

theorem getLsbD_insert (w v : BitVec n) (hsize : start + size ≤ n) (hi : i < n) :
    (insert w v (mask n size) start).getLsbD i =
      if start ≤ i ∧ i < start + size then v.getLsbD (i - start) else w.getLsbD i := by
  have hmask : ∀ j, (mask n size).getLsbD j = decide (j < size) := fun j =>
    getLsbD_mask (by omega)
  simp only [insert, BitVec.getLsbD_or, BitVec.getLsbD_and, BitVec.getLsbD_not,
    BitVec.getLsbD_shiftLeft, hmask, hi, decide_true, Bool.true_and]
  by_cases hbefore : i < start
  · rw [if_neg (by omega)]
    simp [hbefore]
  · by_cases hafter : i < start + size
    · rw [if_pos (by omega)]
      have hinside : i - start < size := by omega
      simp [hbefore, hinside]
    · rw [if_neg (by omega)]
      have houtside : ¬ i - start < size := by omega
      simp [hbefore, houtside]

/-- What is read is what has been written. -/
theorem extractLsb'_insert (w v : BitVec n) (hsize : start + size ≤ n) :
    (insert w v (mask n size) start).extractLsb' start size = v.setWidth size := by
  apply BitVec.eq_of_getLsbD_eq
  intro i hi
  rw [BitVec.getLsbD_extractLsb', getLsbD_insert w v hsize (by omega), if_pos (by omega),
    BitVec.getLsbD_setWidth, Nat.add_sub_cancel_left]

/-- Shifting up and down again leaves the field with its sign. -/
theorem sshiftRight_shiftLeft (x : BitVec n) (hpos : 0 < size) (hsize : start + size ≤ n) :
    (x <<< (n - (start + size))).sshiftRight (n - size) =
      (x.extractLsb' start size).signExtend n := by
  apply BitVec.eq_of_getLsbD_eq
  intro i hi
  have hshift : ∀ j, n - (start + size) ≤ j → j < n →
      (x <<< (n - (start + size))).getLsbD j = x.getLsbD (start + size + j - n) := by
    intro j hle hj
    rw [BitVec.getLsbD_shiftLeft, decide_eq_true hj, decide_eq_false (not_lt.2 hle)]
    have hindex : j - (n - (start + size)) = start + size + j - n := by omega
    rw [hindex]
    rfl
  rw [BitVec.getLsbD_sshiftRight, BitVec.getLsbD_signExtend, BitVec.getLsbD_extractLsb',
    BitVec.msb_eq_getLsbD_last, BitVec.msb_eq_getLsbD_last, BitVec.getLsbD_extractLsb',
    decide_eq_false (not_le.2 hi), decide_eq_true hi]
  by_cases hinside : i < size
  · rw [if_pos (by omega), if_pos hinside, hshift _ (by omega) (by omega)]
    have hindex : start + size + (n - size + i) - n = start + i := by omega
    simp [hindex, hinside]
  · rw [if_neg (by omega), if_neg hinside, hshift _ (by omega) (by omega)]
    have hindex : start + size + (n - 1) - n = start + (size - 1) := by omega
    have hlast : size - 1 < size := by omega
    simp [hindex, hlast]

/-- A field at the top of the word. -/
theorem sshiftRight_top (x : BitVec n) (hpos : 0 < size) (hsize : start + size = n) :
    x.sshiftRight start = (x.extractLsb' start size).signExtend n := by
  have hshift := sshiftRight_shiftLeft x hpos hsize.le
  have hup : n - (start + size) = 0 := by omega
  have hdown : n - size = start := by omega
  rw [hup, hdown, BitVec.shiftLeft_zero] at hshift
  exact hshift

/-- Shifting down leaves the field above which there is nothing. -/
theorem ushiftRight_and (x : BitVec n) (hsize : start + size ≤ n) :
    x >>> start &&& mask n size = (x.extractLsb' start size).setWidth n := by
  apply BitVec.eq_of_getLsbD_eq
  intro i hi
  rw [BitVec.getLsbD_and, BitVec.getLsbD_ushiftRight, getLsbD_mask (by omega),
    BitVec.getLsbD_setWidth, BitVec.getLsbD_extractLsb', Bool.and_comm]
  simp [hi]

/-- A field of the low bits of a shifted word. -/
theorem setWidth_ushiftRight (x : BitVec n) :
    (x >>> start).setWidth size = x.extractLsb' start size := by
  apply BitVec.eq_of_getLsbD_eq
  intro i hi
  simp [hi]

theorem setWidth_sshiftRight (x : BitVec n) (hsize : start + size ≤ n) :
    (x.sshiftRight start).setWidth size = x.extractLsb' start size := by
  apply BitVec.eq_of_getLsbD_eq
  intro i hi
  have hin : start + i < n := by omega
  simp [BitVec.getLsbD_sshiftRight, hi, hin]
  omega

end Pnet.Lib.BitField
