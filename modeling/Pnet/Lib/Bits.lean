import Mathlib.Data.BitVec

/-! Masks, tags and shifts of fixed-width words read as arithmetic on natural
numbers, so that `omega` can finish what a byte layout leaves open. -/
namespace Pnet.Lib.Bits

/-- Keeping the low `k` bits is a remainder. -/
theorem toNat_and_mask {w : Nat} (x mask : BitVec w) (k : Nat) (hmask : mask.toNat = 2 ^ k - 1) :
    (x &&& mask).toNat = x.toNat % 2 ^ k := by
  rw [BitVec.toNat_and, hmask, Nat.and_two_pow_sub_one_eq_mod]

/-- Words without a common bit add up: `y` lies below position `k`, `x` above. -/
theorem toNat_or_low {w : Nat} (x y : BitVec w) (k : Nat) (hx : x.toNat % 2 ^ k = 0)
    (hy : y.toNat < 2 ^ k) : (x ||| y).toNat = x.toNat + y.toNat := by
  have hdiv : 2 ^ k * (x.toNat / 2 ^ k) = x.toNat := by
    have := Nat.mod_add_div x.toNat (2 ^ k)
    omega
  rw [BitVec.toNat_or, ← hdiv, ← Nat.two_pow_add_eq_or_of_lt hy]

/-- The same with the tag written second. -/
theorem toNat_or_tag {w : Nat} (x tag : BitVec w) (k : Nat) (hx : x.toNat < 2 ^ k)
    (htag : tag.toNat % 2 ^ k = 0) : (x ||| tag).toNat = x.toNat + tag.toNat := by
  rw [BitVec.or_comm, toNat_or_low tag x k htag hx, Nat.add_comm]

theorem toNat_shiftLeft_of_lt {w : Nat} (x : BitVec w) (k : Nat) (hx : x.toNat * 2 ^ k < 2 ^ w) :
    (x <<< k).toNat = x.toNat * 2 ^ k := by
  rw [BitVec.toNat_shiftLeft, Nat.shiftLeft_eq, Nat.mod_eq_of_lt hx]

/-- Truncating an arithmetic shift forgets the sign bits it moved in. -/
theorem setWidth_sshiftRight {w n : Nat} (x : BitVec w) (k : Nat) (h : k + n ≤ w) :
    (x.sshiftRight k).setWidth n = (x >>> k).setWidth n := by
  apply BitVec.eq_of_getLsbD_eq
  intro i hi
  simp only [BitVec.getLsbD_setWidth, BitVec.getLsbD_sshiftRight, BitVec.getLsbD_ushiftRight]
  have hlt : k + i < w := by omega
  have hle : ¬ w ≤ i := by omega
  simp [hlt, hle]

/-- Truncation commutes with joining and masking. -/
theorem setWidth_or {w n : Nat} (x y : BitVec w) :
    (x ||| y).setWidth n = x.setWidth n ||| y.setWidth n := by
  apply BitVec.eq_of_getLsbD_eq
  intro i hi
  simp [BitVec.getLsbD_setWidth]

theorem setWidth_and {w n : Nat} (x y : BitVec w) :
    (x &&& y).setWidth n = x.setWidth n &&& y.setWidth n := by
  apply BitVec.eq_of_getLsbD_eq
  intro i hi
  simp [hi]

theorem toNat_setWidth_ushiftRight {w : Nat} (x : BitVec w) (k n : Nat) :
    ((x >>> k).setWidth n).toNat = x.toNat / 2 ^ k % 2 ^ n := by
  rw [BitVec.toNat_setWidth, BitVec.toNat_ushiftRight, Nat.shiftRight_eq_div_pow]

theorem toNat_setWidth_shiftLeft {w : Nat} (x : BitVec w) (k n : Nat) (h : n ≤ w) :
    ((x <<< k).setWidth n).toNat = x.toNat * 2 ^ k % 2 ^ n := by
  rw [BitVec.toNat_setWidth, BitVec.toNat_shiftLeft, Nat.shiftLeft_eq,
    Nat.mod_mod_of_dvd _ (Nat.pow_dvd_pow 2 h)]

/-- Two bytes joined most significant first. -/
theorem toNat_join2 (a b : BitVec 8) :
    ((a.setWidth 32 <<< 8) ||| b.setWidth 32).toNat = a.toNat * 2 ^ 8 + b.toNat := by
  have ha : a.toNat < 2 ^ 8 := a.isLt
  have hb : b.toNat < 2 ^ 8 := b.isLt
  have ea : (a.setWidth 32 <<< 8).toNat = a.toNat * 2 ^ 8 := by
    rw [toNat_shiftLeft_of_lt] <;> simp <;> omega
  have eb : (b.setWidth 32).toNat = b.toNat := by simp; omega
  rw [toNat_or_low _ _ 8 (by omega) (by omega), ea, eb]

/-- Four bytes joined most significant first. -/
theorem toNat_join4 (a b c d : BitVec 8) :
    ((a.setWidth 32 <<< 24) ||| (b.setWidth 32 <<< 16) ||| (c.setWidth 32 <<< 8) |||
      d.setWidth 32).toNat = a.toNat * 2 ^ 24 + b.toNat * 2 ^ 16 + c.toNat * 2 ^ 8 + d.toNat := by
  have ha : a.toNat < 2 ^ 8 := a.isLt
  have hb : b.toNat < 2 ^ 8 := b.isLt
  have hc : c.toNat < 2 ^ 8 := c.isLt
  have hd : d.toNat < 2 ^ 8 := d.isLt
  have shifted (x : BitVec 8) (k : Nat) (hx : x.toNat * 2 ^ k < 2 ^ 32) :
      (x.setWidth 32 <<< k).toNat = x.toNat * 2 ^ k := by
    have hx32 : (x.setWidth 32).toNat = x.toNat := by simp; omega
    rw [toNat_shiftLeft_of_lt _ _ (by rwa [hx32]), hx32]
  have ea := shifted a 24 (by omega)
  have eb := shifted b 16 (by omega)
  have ec := shifted c 8 (by omega)
  have ed : (d.setWidth 32).toNat = d.toNat := by simp; omega
  have eab := toNat_or_low _ _ 24 (by rw [ea]; omega)
    (show (b.setWidth 32 <<< 16).toNat < 2 ^ 24 by omega)
  have eabc := toNat_or_low _ _ 16 (by rw [eab, ea, eb]; omega)
    (show (c.setWidth 32 <<< 8).toNat < 2 ^ 16 by omega)
  rw [toNat_or_low _ _ 8 (by rw [eabc, eab, ea, eb, ec]; omega) (by omega),
    eabc, eab, ea, eb, ec, ed]

/-- A mask of `j` bits from bit `k` on keeps these bits where they are. -/
theorem toNat_and_field {w : Nat} (x mask : BitVec w) (k j : Nat)
    (hmask : mask.toNat = 2 ^ k * (2 ^ j - 1)) :
    (x &&& mask).toNat = 2 ^ k * (x.toNat / 2 ^ k % 2 ^ j) := by
  rw [BitVec.toNat_and, hmask, ← Nat.and_two_pow_sub_one_eq_mod, Nat.mul_comm, Nat.mul_comm,
    Nat.mul_comm (2 ^ k), ← Nat.shiftLeft_eq, Nat.mul_comm, ← Nat.shiftLeft_eq,
    ← Nat.shiftRight_eq_div_pow]
  apply Nat.eq_of_testBit_eq
  intro i
  simp only [Nat.testBit_and, Nat.testBit_shiftLeft, Nat.testBit_shiftRight]
  by_cases hi : k ≤ i
  · simp [hi]
  · simp [hi]

/-- A mask of `j` bits from bit `k` on finds nothing. -/
theorem and_eq_zero_iff {w : Nat} (x mask : BitVec w) (k j : Nat)
    (hmask : mask.toNat = 2 ^ k * (2 ^ j - 1)) : x &&& mask = 0#w ↔ x.toNat / 2 ^ k % 2 ^ j = 0 := by
  rw [← BitVec.toNat_inj, toNat_and_field x mask k j hmask, BitVec.toNat_zero, Nat.mul_eq_zero]
  have hpos := Nat.two_pow_pos k
  omega

/-- The bits from bit `k` up are those of the tag. -/
theorem and_eq_tag_iff {w : Nat} (x mask : BitVec w) (tag k j : Nat)
    (hmask : mask.toNat = 2 ^ k * (2 ^ j - 1)) (hw : w = k + j) (htag : tag < 2 ^ j) :
    x &&& mask = BitVec.ofNat w (2 ^ k * tag) ↔ x.toNat / 2 ^ k = tag := by
  have hx : x.toNat / 2 ^ k % 2 ^ j = x.toNat / 2 ^ k := by
    apply Nat.mod_eq_of_lt
    rw [Nat.div_lt_iff_lt_mul (Nat.two_pow_pos k), ← Nat.pow_add, Nat.add_comm, ← hw]
    exact x.isLt
  have hlt : 2 ^ k * tag < 2 ^ w := by
    rw [hw, Nat.pow_add]
    exact Nat.mul_lt_mul_of_pos_left htag (Nat.two_pow_pos k)
  rw [← BitVec.toNat_inj, toNat_and_field x mask k j hmask, hx, BitVec.toNat_ofNat,
    Nat.mod_eq_of_lt hlt, Nat.mul_left_cancel_iff (Nat.two_pow_pos k)]

end Pnet.Lib.Bits

/-! ### Words joined from bytes

Words that are joined from bytes, the bytes of a word, and rotations. -/
namespace Pnet.Lib.ByteJoin
open Lib.Bits

variable {w k : Nat}

/-- A byte that is put above the bits of a word. -/
theorem toNat_or_byte (x : BitVec w) (byte : BitVec 8) (hx : x.toNat < 2 ^ k) (hk : k + 8 ≤ w) :
    (x ||| byte.setWidth w <<< k).toNat = x.toNat + byte.toNat * 2 ^ k := by
  have hbyte := byte.isLt
  have hwide : (byte.setWidth w).toNat = byte.toNat := BitVec.toNat_setWidth_of_le (by omega)
  have hfits : (byte.setWidth w).toNat * 2 ^ k < 2 ^ w := by
    rw [hwide]
    calc byte.toNat * 2 ^ k < 2 ^ 8 * 2 ^ k := Nat.mul_lt_mul_of_pos_right hbyte (Nat.two_pow_pos k)
      _ = 2 ^ (k + 8) := by rw [← Nat.pow_add, Nat.add_comm]
      _ ≤ 2 ^ w := Nat.pow_le_pow_right (by decide) hk
  have hshift := toNat_shiftLeft_of_lt (byte.setWidth w) k hfits
  rw [toNat_or_tag x _ k hx (by rw [hshift, Nat.mul_mod_left]), hshift, hwide]

/-- A word of two bytes, the lower one first. -/
theorem toNat_two (a b : BitVec 8) (hw : 16 ≤ w) :
    (a.setWidth w ||| b.setWidth w <<< 8).toNat = a.toNat + b.toNat * 2 ^ 8 := by
  have ha := a.isLt
  have hwide : (a.setWidth w).toNat = a.toNat := BitVec.toNat_setWidth_of_le (by omega)
  rw [toNat_or_byte _ b (hwide ▸ ha) hw, hwide]

/-- A word of four bytes, the lowest one first. -/
theorem toNat_four (a b c d : BitVec 8) (hw : 32 ≤ w) :
    (a.setWidth w ||| b.setWidth w <<< 8 ||| c.setWidth w <<< 16 ||| d.setWidth w <<< 24).toNat =
      a.toNat + b.toNat * 2 ^ 8 + c.toNat * 2 ^ 16 + d.toNat * 2 ^ 24 := by
  have ha := a.isLt
  have hb := b.isLt
  have hc := c.isLt
  have htwo := toNat_two a b (w := w) (by omega)
  have hthree := toNat_or_byte (a.setWidth w ||| b.setWidth w <<< 8) c (k := 16)
    (by rw [htwo]; omega) (by omega)
  rw [toNat_or_byte _ d (k := 24) (by rw [hthree, htwo]; omega) (by omega), hthree, htwo]

theorem setWidth_eq_of_toNat {x : BitVec w} (byte : BitVec 8)
    (h : x.toNat / 2 ^ k % 2 ^ 8 = byte.toNat) : (x >>> k).setWidth 8 = byte := by
  apply BitVec.eq_of_toNat_eq
  rw [toNat_setWidth_ushiftRight, h]

/-- A property that is checked for each byte. -/
theorem forall_byte {p : BitVec 8 → Prop} [DecidablePred p]
    (h : ((List.range 256).all fun n => p (BitVec.ofNat 8 n)) = true) (x : BitVec 8) : p x := by
  rw [List.all_eq_true] at h
  have hx := h x.toNat (List.mem_range.2 x.isLt)
  rwa [decide_eq_true_eq, BitVec.ofNat_toNat, BitVec.setWidth_eq] at hx

/-- A rotation, and the one that completes it. -/
theorem rotate_back (x : BitVec w) {n : Nat} (hn : n ≤ w) :
    (x <<< n ||| x >>> (w - n)) <<< (w - n) ||| (x <<< n ||| x >>> (w - n)) >>> n = x := by
  apply BitVec.eq_of_getLsbD_eq
  intro i hi
  have hout : x.getLsbD (w - n + (n + i)) = false := BitVec.getLsbD_of_ge x _ (by omega)
  by_cases hlow : i < w - n
  · have hin : n + i < w := by omega
    simp [hlow, hi, hin, hout]
  · have hback : w - n + (i - (w - n)) = i := by omega
    have hin : i - (w - n) < n := by omega
    have hge : ¬n + i < w := by omega
    simp [hlow, hi, hin, hout, hback, hge]

end Pnet.Lib.ByteJoin

/-! ### Extension

Words that are cut down and extended again, with the sign or with zeros. -/
namespace Pnet.Lib.Extension

variable {u v w : Nat}

theorem setWidth_signExtend (x : BitVec w) (huw : u ≤ w) (huv : u ≤ v) :
    (x.signExtend v).setWidth u = x.setWidth u := by
  ext i hi
  have hiv : i < v := by omega
  have hiw : i < w := by omega
  simp [BitVec.getElem_signExtend, hiv, hiw]

theorem msb_setWidth_of_lt (x : BitVec w) (h : w < v) : (x.setWidth v).msb = false := by
  apply BitVec.msb_eq_false_iff_two_mul_lt.2
  rw [BitVec.toNat_setWidth_of_le h.le]
  have hlt := x.isLt
  have hpow : 2 ^ (w + 1) ≤ 2 ^ v := Nat.pow_le_pow_right (by decide) h
  rw [Nat.pow_succ] at hpow
  omega

theorem toInt_setWidth_of_lt (x : BitVec w) (h : w < v) : (x.setWidth v).toInt = x.toNat := by
  rw [BitVec.toInt_eq_toNat_of_msb (msb_setWidth_of_lt x h), BitVec.toNat_setWidth_of_le h.le]

theorem msb_of_nonneg {x : BitVec w} (h : 0 ≤ x.toInt) : x.msb = false := by
  by_contra hmsb
  have hneg := BitVec.toInt_neg_of_msb_true (Bool.not_eq_false _ ▸ hmsb)
  omega

theorem toNat_of_nonneg {x : BitVec w} (h : 0 ≤ x.toInt) : x.toNat = x.toInt.toNat :=
  (BitVec.toNat_toInt_of_msb x (msb_of_nonneg h)).symm

/-- The two extensions differ for what is negative. -/
theorem signExtend_eq_setWidth_iff (x : BitVec w) (h : w < v) :
    x.signExtend v = x.setWidth v ↔ 0 ≤ x.toInt := by
  constructor
  · intro heq
    have hint := congrArg BitVec.toInt heq
    rw [BitVec.toInt_signExtend_of_le h.le, toInt_setWidth_of_lt x h] at hint
    omega
  · intro hnonneg
    exact BitVec.signExtend_eq_setWidth_of_msb_false (msb_of_nonneg hnonneg)

/-! ### Integers cut down to a word -/

theorem ofInt_toInt (x : BitVec w) (h : v ≤ w) : BitVec.ofInt v x.toInt = x.setWidth v :=
  BitVec.signExtend_eq_setWidth_of_le x h

theorem ofInt_toNat (x : BitVec w) (v : Nat) : BitVec.ofInt v x.toNat = x.setWidth v := by
  rw [BitVec.ofInt_natCast, BitVec.ofNat_toNat]

theorem setWidth_ofInt (n : Int) (h : u ≤ v) :
    (BitVec.ofInt v n).setWidth u = BitVec.ofInt u n := by
  apply BitVec.eq_of_toInt_eq
  rw [BitVec.toInt_setWidth, BitVec.toNat_ofInt, BitVec.toInt_ofInt]
  have hdvd : (2 : Int) ^ u ∣ 2 ^ v := pow_dvd_pow 2 h
  have hnonneg : 0 ≤ n % (2 ^ v : Nat) := Int.emod_nonneg _ (by exact_mod_cast (Nat.two_pow_pos v).ne')
  rw [Int.toNat_of_nonneg hnonneg, Int.bmod_def, Int.bmod_def]
  push_cast
  rw [Int.emod_emod_of_dvd _ hdvd]

/-- A number that a word holds with its sign is extended with it. -/
theorem signExtend_ofInt {n : Int} (hu : 0 < u) (hlow : -2 ^ (u - 1) ≤ n)
    (hhigh : n < 2 ^ (u - 1)) : (BitVec.ofInt u n).signExtend v = BitVec.ofInt v n := by
  rw [BitVec.signExtend, BitVec.toInt_ofInt_eq_self hu hlow hhigh]

/-- A number that a word holds without a sign is extended with zeros. -/
theorem setWidth_ofInt_of_lt {n : Int} (hlow : 0 ≤ n) (hhigh : n < 2 ^ u) :
    (BitVec.ofInt u n).setWidth v = BitVec.ofInt v n := by
  lift n to Nat using hlow
  have hn : n < 2 ^ u := by exact_mod_cast hhigh
  apply BitVec.eq_of_toNat_eq
  rw [BitVec.ofInt_natCast, BitVec.ofInt_natCast, BitVec.toNat_setWidth, BitVec.toNat_ofNat,
    BitVec.toNat_ofNat, Nat.mod_eq_of_lt hn]

/-- A word fits into less bits with its sign if its number does. -/
theorem signExtend_fits_iff (x : BitVec w) (hu : 0 < u) (huw : u ≤ w) :
    (x.setWidth u).signExtend w = x ↔ -2 ^ (u - 1) ≤ x.toInt ∧ x.toInt < 2 ^ (u - 1) := by
  constructor
  · intro hx
    rw [← hx, BitVec.toInt_signExtend_of_le huw]
    exact ⟨BitVec.le_toInt _, BitVec.toInt_lt⟩
  · rintro ⟨hlow, hhigh⟩
    rw [← ofInt_toInt x huw, signExtend_ofInt hu hlow hhigh, BitVec.ofInt_toInt]

theorem setWidth_fits_iff (x : BitVec w) (huw : u ≤ w) :
    (x.setWidth u).setWidth w = x ↔ x.toNat < 2 ^ u := by
  constructor
  · intro hx
    rw [← hx, BitVec.toNat_setWidth_of_le huw]
    exact BitVec.isLt _
  · intro hlt
    apply BitVec.eq_of_toNat_eq
    rw [BitVec.toNat_setWidth_of_le huw, BitVec.toNat_setWidth, Nat.mod_eq_of_lt hlt]

end Pnet.Lib.Extension
