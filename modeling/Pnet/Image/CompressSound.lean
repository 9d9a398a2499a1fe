import Pnet.Image.Compress
import Pnet.Lib.Bits
import Pnet.Lib.PrefixCode

/-! What `ilMetaUncompressInt` makes of the bytes of `ilMetaCompressInt`. Both
sides agree on where an item ends; they agree on its value only in the forms
of one, two and four bytes, and there only up to 28 magnitude bits. -/
namespace Pnet.Image
open Pnet.Lib

/-! ### Recognising the form by the first byte -/

theorem oneByteForm_iff : ∀ ch : ILUInt8, ch &&& 0x80 = 0x00 ↔ ch.toNat < 0x80 := by decide

theorem twoByteForm_iff : ∀ ch : ILUInt8,
    ch &&& 0xC0 = 0x80 ↔ 0x80 ≤ ch.toNat ∧ ch.toNat < 0xC0 := by decide

theorem fourByteForm_iff : ∀ ch : ILUInt8,
    ch &&& 0xE0 = 0xC0 ↔ 0xC0 ≤ ch.toNat ∧ ch.toNat < 0xE0 := by decide

theorem and_one_eq_zero_iff {w : Nat} (x : BitVec (w + 1)) :
    x &&& 1 = 0 ↔ x.toNat % 2 = 0 := by
  have hmask := Bits.toNat_and_mask x 1 1 (by simp)
  rw [← BitVec.toNat_inj, hmask]
  simp

/-! ### Reading one form back -/

/-- A one-byte item carries its sign in bit 0 and the rest above it. -/
def unrotate7 (ch : ILUInt8) : ILInt32 :=
  if ch &&& 0x01 = 0x00 then (ch >>> 1).setWidth 32 else ((ch >>> 1) ||| 0xC0).signExtend 32

def unrotate (value signBits : ILUInt32) : ILInt32 :=
  if value &&& 0x01 = 0x00 then value >>> 1 else (value >>> 1) ||| signBits

theorem ilMetaUncompressInt_one (ch : ILUInt8) (rest : List ILUInt8) (h : ch.toNat < 0x80) :
    ilMetaUncompressInt ⟨ch :: rest, false⟩ = (unrotate7 ch, ⟨rest, false⟩) := by
  simp only [ilMetaUncompressInt, (oneByteForm_iff ch).mpr h, ↓reduceIte, unrotate7]
  split <;> rfl

theorem ilMetaUncompressInt_two (ch ch2 : ILUInt8) (rest : List ILUInt8)
    (h : 0x80 ≤ ch.toNat ∧ ch.toNat < 0xC0) :
    ilMetaUncompressInt ⟨ch :: ch2 :: rest, false⟩ =
      (unrotate (((ch &&& 0x3F).setWidth 32 <<< 8) ||| ch2.setWidth 32) 0xFFFFE000,
        ⟨rest, false⟩) := by
  have h1 : ¬ ch &&& 0x80 = 0x00 := by rw [oneByteForm_iff]; omega
  simp only [ilMetaUncompressInt, h1, (twoByteForm_iff ch).mpr h, ↓reduceIte, unrotate]
  split <;> rfl

theorem ilMetaUncompressInt_four (ch ch2 ch3 ch4 : ILUInt8) (rest : List ILUInt8)
    (h : 0xC0 ≤ ch.toNat ∧ ch.toNat < 0xE0) :
    ilMetaUncompressInt ⟨ch :: ch2 :: ch3 :: ch4 :: rest, false⟩ =
      (unrotate (((ch &&& 0x1F).setWidth 32 <<< 24) ||| (ch2.setWidth 32 <<< 16) |||
          (ch3.setWidth 32 <<< 8) ||| ch4.setWidth 32) 0xF0000000, ⟨rest, false⟩) := by
  have h1 : ¬ ch &&& 0x80 = 0x00 := by rw [oneByteForm_iff]; omega
  have h2 : ¬ ch &&& 0xC0 = 0x80 := by rw [twoByteForm_iff]; omega
  simp only [ilMetaUncompressInt, h1, h2, (fourByteForm_iff ch).mpr h, ↓reduceIte, unrotate]
  split <;> rfl

theorem ilMetaUncompressInt_five (ch ch1 ch2 ch3 ch4 : ILUInt8) (rest : List ILUInt8)
    (h : 0xE0 ≤ ch.toNat) :
    ilMetaUncompressInt ⟨ch :: ch1 :: ch2 :: ch3 :: ch4 :: rest, false⟩ =
      ((ch1.setWidth 32 <<< 24) ||| (ch2.setWidth 32 <<< 16) ||| (ch3.setWidth 32 <<< 8) |||
        ch4.setWidth 32, ⟨rest, false⟩) := by
  have h1 : ¬ ch &&& 0x80 = 0x00 := by rw [oneByteForm_iff]; omega
  have h2 : ¬ ch &&& 0xC0 = 0x80 := by rw [twoByteForm_iff]; omega
  have h3 : ¬ ch &&& 0xE0 = 0xC0 := by rw [fourByteForm_iff]; omega
  simp only [ilMetaUncompressInt, h1, h2, h3, ↓reduceIte]

/-! ### The payload of each form as a number -/

theorem toNat_unrotate (value signBits : ILUInt32) (k : Nat) (hvalue : value.toNat < 2 ^ (k + 1))
    (hsign : signBits.toNat % 2 ^ k = 0) :
    (unrotate value signBits).toNat =
      if value.toNat % 2 = 0 then value.toNat / 2 else value.toNat / 2 + signBits.toNat := by
  have hhalf : (value >>> 1).toNat = value.toNat / 2 := by
    rw [BitVec.toNat_ushiftRight, Nat.shiftRight_eq_div_pow, Nat.pow_one]
  unfold unrotate
  simp only [and_one_eq_zero_iff]
  split
  · exact hhalf
  · rw [Bits.toNat_or_tag _ _ k (by rw [hhalf]; omega) hsign, hhalf]

theorem toNat_unrotate7 (ch : ILUInt8) (h : ch.toNat < 0x80) :
    (unrotate7 ch).toNat =
      if ch.toNat % 2 = 0 then ch.toNat / 2 else ch.toNat / 2 + 0xFFFFFFC0 := by
  have hhalf : (ch >>> 1).toNat = ch.toNat / 2 := by
    rw [BitVec.toNat_ushiftRight, Nat.shiftRight_eq_div_pow, Nat.pow_one]
  unfold unrotate7
  simp only [and_one_eq_zero_iff]
  split
  · simp only [BitVec.toNat_setWidth, hhalf]
    omega
  · have htag : ((ch >>> 1) ||| (0xC0 : ILUInt8)).toNat = ch.toNat / 2 + 0xC0 := by
      rw [Bits.toNat_or_tag _ _ 6 (by rw [hhalf]; omega) (by decide), hhalf]
      rfl
    have hmsb : ((ch >>> 1) ||| (0xC0 : ILUInt8)).msb = true := by
      rw [BitVec.msb_eq_decide, htag]
      simp
    rw [BitVec.toNat_signExtend, hmsb, BitVec.toNat_setWidth, htag]
    simp only [↓reduceIte]
    omega

/-- The unsigned reading of a signed word, with the sign as a case. -/
theorem toInt_cases (v : ILInt32) :
    (v.toNat < 2 ^ 31 ∧ v.toInt = v.toNat) ∨
      (2 ^ 31 ≤ v.toNat ∧ v.toNat < 2 ^ 32 ∧ v.toInt = v.toNat - 2 ^ 32) := by
  have hlt : v.toNat < 2 ^ 32 := v.isLt
  rw [BitVec.toInt_eq_toNat_cond]
  split <;> omega

/-! ### One item -/

/-- The value that comes back for `data`, form by form. -/
def reread (data : ILInt32) : ILInt32 :=
  if -(2 ^ 28) ≤ data.toInt ∧ data.toInt < 2 ^ 28 then data
  -- the five-byte forms come back doubled, with the sign still in bit 0
  else if 0 ≤ data.toInt then data + data
  -- the four-byte form has no room for bit 28
  else if -(2 ^ 29) ≤ data.toInt then data + 0x10000000
  else data + data + 1

theorem toNat_lowByte (data : ILInt32) :
    ((data <<< 1).setWidth 8).toNat = data.toNat * 2 % 2 ^ 8 := by
  rw [Bits.toNat_setWidth_shiftLeft _ _ _ (by decide), Nat.pow_one]

theorem toNat_lowByte_neg (data : ILInt32) :
    (((data <<< 1) ||| 0x01).setWidth 8).toNat = data.toNat * 2 % 2 ^ 8 + 1 := by
  have hlow := toNat_lowByte data
  rw [Bits.setWidth_or, Bits.toNat_or_low _ _ 1 (by omega) (by decide), hlow]
  rfl

theorem toNat_byteAt (data : ILInt32) (k : Nat) (h : k + 8 ≤ 32) :
    ((data.sshiftRight k).setWidth 8).toNat = data.toNat / 2 ^ k % 2 ^ 8 := by
  rw [Bits.setWidth_sshiftRight _ _ h, Bits.toNat_setWidth_ushiftRight]

/-- A first byte: a tag over the payload bits that `mask` lets through. -/
theorem toNat_head (byte mask tag : ILUInt8) (k : Nat) (hmask : mask.toNat = 2 ^ k - 1)
    (htag : tag.toNat % 2 ^ k = 0) :
    (byte &&& mask ||| tag).toNat = byte.toNat % 2 ^ k + tag.toNat := by
  have hpayload := Bits.toNat_and_mask byte mask k hmask
  rw [Bits.toNat_or_tag _ _ k _ htag, hpayload]
  rw [hpayload]
  exact Nat.mod_lt _ (Nat.two_pow_pos k)

theorem toNat_twoByteHead (data : ILInt32) :
    (((data.sshiftRight 7 &&& 0x3F) ||| 0x80).setWidth 8).toNat =
      data.toNat / 2 ^ 7 % 2 ^ 6 + 0x80 := by
  have hbyte := toNat_byteAt data 7 (by decide)
  rw [Bits.setWidth_or, Bits.setWidth_and]
  change ((data.sshiftRight 7).setWidth 8 &&& (0x3F : ILUInt8) ||| (0x80 : ILUInt8)).toNat = _
  rw [toNat_head _ _ _ 6 (by decide) (by decide), hbyte, Nat.mod_mod_of_dvd _ (by decide)]
  rfl

theorem toNat_fourByteHead_neg (data : ILInt32) :
    (((data.sshiftRight 23 &&& 0x1F) ||| 0xC0).setWidth 8).toNat =
      data.toNat / 2 ^ 23 % 2 ^ 5 + 0xC0 := by
  have hbyte := toNat_byteAt data 23 (by decide)
  rw [Bits.setWidth_or, Bits.setWidth_and]
  change ((data.sshiftRight 23).setWidth 8 &&& (0x1F : ILUInt8) ||| (0xC0 : ILUInt8)).toNat = _
  rw [toNat_head _ _ _ 5 (by decide) (by decide), hbyte, Nat.mod_mod_of_dvd _ (by decide)]
  rfl

/-- The positive side leaves out the mask: its bound already clears those bits. -/
theorem toNat_fourByteHead_pos (data : ILInt32) (h : data.toNat < 2 ^ 28) :
    ((data.sshiftRight 23 ||| 0xC0).setWidth 8).toNat = data.toNat / 2 ^ 23 + 0xC0 := by
  have hbyte := toNat_byteAt data 23 (by decide)
  have hsmall : data.toNat / 2 ^ 23 % 2 ^ 8 = data.toNat / 2 ^ 23 := by omega
  rw [hsmall] at hbyte
  rw [Bits.setWidth_or]
  change ((data.sshiftRight 23).setWidth 8 ||| (0xC0 : ILUInt8)).toNat = _
  rw [Bits.toNat_or_tag _ _ 5 (by rw [hbyte]; omega) (by decide), hbyte]
  rfl

theorem toNat_oneByte_neg : ∀ byte : ILUInt8,
    (byte &&& 0x7E ||| 0x01).toNat = byte.toNat % 2 ^ 7 / 2 * 2 + 1 := by decide

/-- The decoders' payload of a two-byte item. -/
theorem toNat_payload2 (ch ch2 : ILUInt8) :
    (((ch &&& 0x3F).setWidth 32 <<< 8) ||| ch2.setWidth 32 : ILUInt32).toNat =
      ch.toNat % 2 ^ 6 * 2 ^ 8 + ch2.toNat := by
  rw [Bits.toNat_join2, Bits.toNat_and_mask ch _ 6 (by decide)]

theorem toNat_payload4 (ch ch2 ch3 ch4 : ILUInt8) :
    (((ch &&& 0x1F).setWidth 32 <<< 24) ||| (ch2.setWidth 32 <<< 16) |||
      (ch3.setWidth 32 <<< 8) ||| ch4.setWidth 32 : ILUInt32).toNat =
      ch.toNat % 2 ^ 5 * 2 ^ 24 + ch2.toNat * 2 ^ 16 + ch3.toNat * 2 ^ 8 + ch4.toNat := by
  rw [Bits.toNat_join4, Bits.toNat_and_mask ch _ 5 (by decide)]

/-- Bits 0 to 27 of a word, moved up by one and cut into bytes. -/
theorem bytes_of_28 (v : Nat) :
    v / 2 ^ 23 % 2 ^ 5 * 2 ^ 24 + v / 2 ^ 15 % 2 ^ 8 * 2 ^ 16 + v / 2 ^ 7 % 2 ^ 8 * 2 ^ 8 +
      v * 2 % 2 ^ 8 = v % 2 ^ 28 * 2 := by
  omega

/-- The same with the top byte in full. -/
theorem bytes_of_31 (v : Nat) :
    v / 2 ^ 23 % 2 ^ 8 * 2 ^ 24 + v / 2 ^ 15 % 2 ^ 8 * 2 ^ 16 + v / 2 ^ 7 % 2 ^ 8 * 2 ^ 8 +
      v * 2 % 2 ^ 8 = v % 2 ^ 31 * 2 := by
  omega

/-! ### The forms one by one -/

section Forms
variable (data : ILInt32) (rest : List ILUInt8)

theorem reread_one (h : -0x40 ≤ data.toInt ∧ data.toInt < 0x40) (byte : ILUInt8)
    (hbyte : byte.toNat = data.toNat * 2 % 2 ^ 7 + if 0 ≤ data.toInt then 0 else 1) :
    ilMetaUncompressInt ⟨byte :: rest, false⟩ = (reread data, ⟨rest, false⟩) := by
  have hcases := toInt_cases data
  have hlt : byte.toNat < 0x80 := by split at hbyte <;> omega
  rw [ilMetaUncompressInt_one _ _ hlt, reread, if_pos (by omega)]
  congr 1
  rw [← BitVec.toNat_inj, toNat_unrotate7 _ hlt]
  split at hbyte <;> split <;> omega

theorem reread_two (h : -(2 ^ 13) ≤ data.toInt ∧ data.toInt < 2 ^ 13) (ch ch2 : ILUInt8)
    (hch : ch.toNat = data.toNat / 2 ^ 7 % 2 ^ 6 + 0x80)
    (hch2 : ch2.toNat = data.toNat * 2 % 2 ^ 8 + if 0 ≤ data.toInt then 0 else 1) :
    ilMetaUncompressInt ⟨ch :: ch2 :: rest, false⟩ = (reread data, ⟨rest, false⟩) := by
  have hcases := toInt_cases data
  have hpayload := toNat_payload2 ch ch2
  rw [ilMetaUncompressInt_two _ _ _ (by omega), reread, if_pos (by omega)]
  congr 1
  rw [← BitVec.toNat_inj, toNat_unrotate _ _ 13 (by split at hch2 <;> omega) (by decide), hpayload]
  have hsign : (0xFFFFE000 : ILUInt32).toNat = 0xFFFFE000 := by decide
  rw [hsign]
  split at hch2 <;> split <;> omega

theorem reread_four (h : -(2 ^ 29) ≤ data.toInt ∧ data.toInt < 2 ^ 28) (ch ch2 ch3 ch4 : ILUInt8)
    (hch : ch.toNat = data.toNat / 2 ^ 23 % 2 ^ 5 + 0xC0)
    (hch2 : ch2.toNat = data.toNat / 2 ^ 15 % 2 ^ 8) (hch3 : ch3.toNat = data.toNat / 2 ^ 7 % 2 ^ 8)
    (hch4 : ch4.toNat = data.toNat * 2 % 2 ^ 8 + if 0 ≤ data.toInt then 0 else 1) :
    ilMetaUncompressInt ⟨ch :: ch2 :: ch3 :: ch4 :: rest, false⟩ =
      (reread data, ⟨rest, false⟩) := by
  have hcases := toInt_cases data
  have hform : 0xC0 ≤ ch.toNat ∧ ch.toNat < 0xE0 := by omega
  have hpayload := toNat_payload4 ch ch2 ch3 ch4
  have hbits : ch.toNat % 2 ^ 5 = data.toNat / 2 ^ 23 % 2 ^ 5 := by omega
  have hbytes := bytes_of_28 data.toNat
  rw [hbits, hch2, hch3, hch4, ← Nat.add_assoc, hbytes] at hpayload
  clear hbytes hbits hch hch2 hch3 hch4
  rw [ilMetaUncompressInt_four _ _ _ _ _ hform]
  congr 1
  rw [← BitVec.toNat_inj, toNat_unrotate _ _ 28 (by split at hpayload <;> omega) (by decide),
    hpayload, reread]
  have hsign : (0xF0000000 : ILUInt32).toNat = 0xF0000000 := by decide
  rw [hsign]
  by_cases hpos : 0 ≤ data.toInt
  · rw [if_pos hpos, if_pos (by omega), if_pos (by omega)]
    omega
  · rw [if_neg hpos, if_neg (by omega)]
    by_cases hfit : -(2 ^ 28) ≤ data.toInt
    · rw [if_pos (by omega)]
      omega
    · rw [if_neg (by omega), if_neg hpos, if_pos h.1, BitVec.toNat_add]
      have hbit : (0x10000000 : ILUInt32).toNat = 0x10000000 := by decide
      rw [hbit]
      omega

theorem reread_five (h : data.toInt < -(2 ^ 29) ∨ 2 ^ 28 ≤ data.toInt)
    (ch ch1 ch2 ch3 ch4 : ILUInt8) (hch : 0xE0 ≤ ch.toNat)
    (hch1 : ch1.toNat = data.toNat / 2 ^ 23 % 2 ^ 8)
    (hch2 : ch2.toNat = data.toNat / 2 ^ 15 % 2 ^ 8) (hch3 : ch3.toNat = data.toNat / 2 ^ 7 % 2 ^ 8)
    (hch4 : ch4.toNat = data.toNat * 2 % 2 ^ 8 + if 0 ≤ data.toInt then 0 else 1) :
    ilMetaUncompressInt ⟨ch :: ch1 :: ch2 :: ch3 :: ch4 :: rest, false⟩ =
      (reread data, ⟨rest, false⟩) := by
  have hcases := toInt_cases data
  have hpayload := Bits.toNat_join4 ch1 ch2 ch3 ch4
  have hbytes := bytes_of_31 data.toNat
  rw [hch1, hch2, hch3, hch4, ← Nat.add_assoc, hbytes] at hpayload
  clear hbytes hch1 hch2 hch3 hch4
  rw [ilMetaUncompressInt_five _ _ _ _ _ _ hch]
  congr 1
  have hout : ¬ (-(2 ^ 28) ≤ data.toInt ∧ data.toInt < 2 ^ 28) := by omega
  rw [← BitVec.toNat_inj, hpayload, reread, if_neg hout]
  by_cases hpos : 0 ≤ data.toInt
  · rw [if_pos hpos, if_pos hpos, BitVec.toNat_add]
    omega
  · have hone : (1 : ILInt32).toNat = 1 := by decide
    rw [if_neg hpos, if_neg hpos, if_neg (by omega), BitVec.toNat_add, BitVec.toNat_add, hone]
    omega

end Forms

/-- Every item is read back as `reread` says, to its last byte and without an
error, whatever follows it. -/
theorem ilMetaUncompressInt_compressInt (data : ILInt32) (rest : List ILUInt8) :
    ilMetaUncompressInt ⟨ilMetaCompressInt data ++ rest, false⟩ = (reread data, ⟨rest, false⟩) := by
  have hcases := toInt_cases data
  have hlow := toNat_lowByte data
  have hneg := toNat_lowByte_neg data
  have h7 := toNat_byteAt data 7 (by decide)
  have h15 := toNat_byteAt data 15 (by decide)
  have h23 := toNat_byteAt data 23 (by decide)
  unfold ilMetaCompressInt
  split_ifs with hpos h1 h2 h4 h1 h2 h4
  · exact reread_one data rest (by omega) _ (by rw [hlow, if_pos hpos]; omega)
  · exact reread_two data rest (by omega) _ _ (toNat_twoByteHead data) (by rw [hlow, if_pos hpos]; rfl)
  · exact reread_four data rest (by omega) _ _ _ _
      (by rw [toNat_fourByteHead_pos data (by omega)]; omega) h15 h7 (by rw [hlow, if_pos hpos]; rfl)
  · exact reread_five data rest (by omega) _ _ _ _ _ (by decide) h23 h15 h7
      (by rw [hlow, if_pos hpos]; rfl)
  · exact reread_one data rest (by omega) _ (by rw [toNat_oneByte_neg, hlow, if_neg hpos]; omega)
  · exact reread_two data rest (by omega) _ _ (toNat_twoByteHead data) (by rw [hneg, if_neg hpos])
  · exact reread_four data rest (by omega) _ _ _ _ (toNat_fourByteHead_neg data) h15 h7
      (by rw [hneg, if_neg hpos])
  · exact reread_five data rest (by omega) _ _ _ _ _ (by decide) h23 h15 h7
      (by rw [hneg, if_neg hpos])

/-! ### Sequences of items -/

/-- Signed items that the one-, two- and four-byte forms hold in full. -/
def Fits28 (data : ILInt32) : Prop := -(2 ^ 28) ≤ data.toInt ∧ data.toInt < 2 ^ 28

instance (data : ILInt32) : Decidable (Fits28 data) := inferInstanceAs (Decidable (_ ∧ _))

theorem toNat_eq_zero_of_double (data : ILInt32) (h : data + data = data) : data.toNat = 0 := by
  have hnat := congrArg BitVec.toNat h
  rw [BitVec.toNat_add] at hnat
  omega

theorem add_bit28_ne (data : ILInt32) : data + 0x10000000 ≠ data := by
  intro h
  have hnat := congrArg BitVec.toNat h
  have hbit : (0x10000000 : ILUInt32).toNat = 2 ^ 28 := by decide
  rw [BitVec.toNat_add, hbit] at hnat
  clear h hbit
  omega

theorem toNat_eq_max_of_double_succ (data : ILInt32) (h : data + data + 1 = data) :
    data.toNat = 2 ^ 32 - 1 := by
  have hlt : data.toNat < 2 ^ 32 := data.isLt
  have hnat := congrArg BitVec.toNat h
  have hone : (1 : ILUInt32).toNat = 1 := by decide
  rw [BitVec.toNat_add, BitVec.toNat_add, hone] at hnat
  clear h hone
  omega

theorem reread_eq_iff (data : ILInt32) : reread data = data ↔ Fits28 data := by
  have hcases := toInt_cases data
  unfold reread Fits28
  split_ifs with h1 h2 h3
  · exact iff_of_true rfl h1
  · refine iff_of_false (fun h => ?_) h1
    have hzero := toNat_eq_zero_of_double data h
    omega
  · exact iff_of_false (add_bit28_ne data) h1
  · refine iff_of_false (fun h => ?_) h1
    have hmax := toNat_eq_max_of_double_succ data h
    omega

/-- A reader before `data`, with no error so far. -/
def readerAt (data : List ILUInt8) : ILMetaDataRead := ⟨data, false⟩

theorem ilMetaInt_decodes :
    PrefixCode.Decodes readerAt ilMetaCompressInt ilMetaUncompressInt reread :=
  ilMetaUncompressInt_compressInt

theorem ilMetaUncompressInt_eq_iff (data : ILInt32) (rest : List ILUInt8) :
    ilMetaUncompressInt (readerAt (ilMetaCompressInt data ++ rest)) = (data, readerAt rest) ↔
      Fits28 data := by
  rw [ilMetaInt_decodes data rest, Prod.mk.injEq, reread_eq_iff]
  simp

/-- A signed item comes back, with exactly its own bytes consumed and no error,
if and only if it fits 28 magnitude bits; a sequence does if all its items do. -/
theorem ilMetaInt_roundTrip_iff (data : ILInt32) (items : List ILInt32) (rest : List ILUInt8) :
    (ilMetaUncompressInt (readerAt (ilMetaCompressInt data ++ rest)) = (data, readerAt rest) ↔
        Fits28 data) ∧
      (PrefixCode.readMany ilMetaUncompressInt items.length
          (readerAt (items.flatMap ilMetaCompressInt ++ rest)) = (items, readerAt rest) ↔
        ∀ item ∈ items, Fits28 item) := by
  refine ⟨ilMetaUncompressInt_eq_iff data rest, ?_⟩
  rw [PrefixCode.readMany_eq_iff ilMetaInt_decodes]
  simp only [reread_eq_iff]

/-- `2 ^ 28` takes the five-byte form and comes back doubled. -/
theorem ilMetaInt_doubles_two_pow_28 :
    ¬ ∀ (data : ILInt32) (rest : List ILUInt8),
      ilMetaUncompressInt (readerAt (ilMetaCompressInt data ++ rest)) = (data, readerAt rest) := by
  intro h
  have hread := h 0x10000000 []
  have hwrong : ilMetaUncompressInt (readerAt (ilMetaCompressInt 0x10000000 ++ [])) =
      (0x20000000, readerAt []) := by decide
  rw [hwrong] at hread
  exact absurd (congrArg Prod.fst hread) (by decide)

end Pnet.Image

/-! ### Unsigned values

What `ilMetaUncompressData` makes of the bytes of `ilMetaCompressData`: every 32-bit value
comes back, in front of any other bytes. -/
namespace Pnet.Image
open Pnet.Lib

theorem toNat_byteAtData (data : ILUInt32) (k : Nat) :
    ((data >>> k).setWidth 8).toNat = data.toNat / 2 ^ k % 2 ^ 8 :=
  Bits.toNat_setWidth_ushiftRight data k 8

/-- A first byte: a tag over the payload that is left. -/
theorem toNat_dataHead (data : ILUInt32) (s k : Nat) (tag : ILUInt32)
    (htag : (tag.setWidth 8 : ILUInt8).toNat % 2 ^ k = 0) (hdata : data.toNat / 2 ^ s < 2 ^ k)
    (hk : k ≤ 8) :
    (((data >>> s) ||| tag).setWidth 8).toNat =
      data.toNat / 2 ^ s + (tag.setWidth 8 : ILUInt8).toNat := by
  have hbyte := toNat_byteAtData data s
  have hpow : 2 ^ k ≤ 2 ^ 8 := Nat.pow_le_pow_right (by decide) hk
  rw [Nat.mod_eq_of_lt (by omega)] at hbyte
  rw [Bits.setWidth_or, Bits.toNat_or_tag _ _ k (by rw [hbyte]; exact hdata) htag, hbyte]

section Forms

variable (data : ILUInt32) (rest : List ILUInt8)

theorem uncompressData_two (h : data.toNat < 0x4000) :
    ilMetaUncompressData ⟨((data >>> 8) ||| 0x80).setWidth 8 :: data.setWidth 8 :: rest, false⟩ =
      (data, ⟨rest, false⟩) := by
  have hhead := toNat_dataHead data 8 6 0x80 (by decide) (by omega) (by decide)
  rw [show ((0x80 : ILUInt32).setWidth 8 : ILUInt8).toNat = 0x80 from rfl] at hhead
  generalize (((data >>> 8) ||| 0x80).setWidth 8 : ILUInt8) = ch at hhead
  have hlow : (data.setWidth 8 : ILUInt8).toNat = data.toNat % 2 ^ 8 := BitVec.toNat_setWidth ..
  have h1 : ¬ ch < 0x80 := by
    rw [BitVec.lt_def]
    simp
    omega
  have h2 : ch &&& 0xC0 = 0x80 := (twoByteForm_iff ch).2 (by omega)
  simp only [ilMetaUncompressData, h1, h2, ↓reduceIte]
  refine congrArg (fun v => (v, _)) (BitVec.eq_of_toNat_eq ?_)
  rw [toNat_payload2, hhead, hlow]
  omega

theorem uncompressData_four (h : data.toNat < 0x20000000) :
    ilMetaUncompressData ⟨((data >>> 24) ||| 0xC0).setWidth 8 :: (data >>> 16).setWidth 8 ::
      (data >>> 8).setWidth 8 :: data.setWidth 8 :: rest, false⟩ = (data, ⟨rest, false⟩) := by
  have hhead := toNat_dataHead data 24 5 0xC0 (by decide) (by omega) (by decide)
  rw [show ((0xC0 : ILUInt32).setWidth 8 : ILUInt8).toNat = 0xC0 from rfl] at hhead
  generalize (((data >>> 24) ||| 0xC0).setWidth 8 : ILUInt8) = ch at hhead
  have hlow : (data.setWidth 8 : ILUInt8).toNat = data.toNat % 2 ^ 8 := BitVec.toNat_setWidth ..
  have h1 : ¬ ch < 0x80 := by
    rw [BitVec.lt_def]
    simp
    omega
  have h2 : ¬ ch &&& 0xC0 = 0x80 := by rw [twoByteForm_iff]; omega
  have h3 : ch &&& 0xE0 = 0xC0 := (fourByteForm_iff ch).2 (by omega)
  simp only [ilMetaUncompressData, h1, h2, h3, ↓reduceIte]
  refine congrArg (fun v => (v, _)) (BitVec.eq_of_toNat_eq ?_)
  rw [toNat_payload4, hhead, hlow, toNat_byteAtData, toNat_byteAtData]
  omega

theorem uncompressData_five :
    ilMetaUncompressData ⟨0xE0 :: (data >>> 24).setWidth 8 :: (data >>> 16).setWidth 8 ::
      (data >>> 8).setWidth 8 :: data.setWidth 8 :: rest, false⟩ = (data, ⟨rest, false⟩) := by
  have hlow : (data.setWidth 8 : ILUInt8).toNat = data.toNat % 2 ^ 8 := BitVec.toNat_setWidth ..
  have h1 : ¬ (0xE0 : ILUInt8) < 0x80 := by decide
  have h2 : ¬ (0xE0 : ILUInt8) &&& 0xC0 = 0x80 := by decide
  have h3 : ¬ (0xE0 : ILUInt8) &&& 0xE0 = 0xC0 := by decide
  have h4 : (0xE0 : ILUInt8) &&& 0xF0 = 0xE0 := by decide
  simp only [ilMetaUncompressData, h1, h2, h3, h4, ↓reduceIte]
  refine congrArg (fun v => (v, _)) (BitVec.eq_of_toNat_eq ?_)
  have hlt := data.isLt
  rw [Bits.toNat_join4, hlow, toNat_byteAtData, toNat_byteAtData, toNat_byteAtData]
  omega

theorem ilMetaUncompressData_compressData :
    ilMetaUncompressData ⟨ilMetaCompressData data ++ rest, false⟩ = (data, ⟨rest, false⟩) := by
  unfold ilMetaCompressData
  split_ifs with h1 h2 h3
  · have hch : (data.setWidth 8 : ILUInt8) < 0x80 := by
      rw [BitVec.lt_def] at h1 ⊢
      simp at h1 ⊢
      omega
    simp only [List.singleton_append, ilMetaUncompressData, hch, ↓reduceIte]
    refine congrArg (fun v => (v, _)) (BitVec.eq_of_toNat_eq ?_)
    rw [BitVec.lt_def] at h1
    simp at h1 ⊢
    omega
  · exact uncompressData_two data rest h2
  · exact uncompressData_four data rest h3
  · exact uncompressData_five data rest

end Forms

theorem length_ilMetaCompressData (data : ILUInt32) :
    0 < (ilMetaCompressData data).length ∧ (ilMetaCompressData data).length ≤ 5 := by
  unfold ilMetaCompressData
  split_ifs <;> simp

end Pnet.Image

/-! ### Tokens

A token goes into an item with its row above two bits for its table. -/
namespace Pnet.Image
open Pnet.Lib

/-- The tables whose tokens have a compressed form. -/
def HasTag (token : ILToken) : Prop :=
  token &&& tokenMask = tokenTypeDef ∨ token &&& tokenMask = tokenTypeRef ∨
    token &&& tokenMask = tokenTypeSpec ∨ token &&& tokenMask = tokenBaseType

instance (token : ILToken) : Decidable (HasTag token) :=
  inferInstanceAs (Decidable (_ ∨ _ ∨ _ ∨ _))

theorem toNat_tokenId (token : ILToken) : (token &&& ~~~tokenMask).toNat < 2 ^ 24 := by
  rw [Bits.toNat_and_mask token (~~~tokenMask) 24 (by decide)]
  exact Nat.mod_lt _ (by decide)

theorem tokenId_or_table (token : ILToken) :
    (token &&& ~~~tokenMask) ||| (token &&& tokenMask) = token := by
  apply BitVec.eq_of_getLsbD_eq
  intro i hi
  rw [BitVec.getLsbD_or, BitVec.getLsbD_and, BitVec.getLsbD_and, BitVec.getLsbD_not,
    decide_eq_true hi, Bool.true_and]
  cases token.getLsbD i <;> cases tokenMask.getLsbD i <;> rfl

section Item

variable {row tag : ILUInt32} (hrow : row.toNat < 2 ^ 24) (htag : tag.toNat < 2 ^ 2)
include hrow htag

theorem toNat_tokenItem : (row <<< 2 ||| tag).toNat = row.toNat * 2 ^ 2 + tag.toNat := by
  have hshift := Bits.toNat_shiftLeft_of_lt row 2 (by omega)
  rw [Bits.toNat_or_low _ tag 2 (by rw [hshift]; omega) htag, hshift]

theorem tokenItem_tag : (row <<< 2 ||| tag) &&& 0x03 = tag := by
  apply BitVec.eq_of_toNat_eq
  rw [Bits.toNat_and_mask _ 0x03 2 (by decide), toNat_tokenItem hrow htag]
  omega

theorem tokenItem_row : (row <<< 2 ||| tag) >>> 2 = row := by
  apply BitVec.eq_of_toNat_eq
  rw [BitVec.toNat_ushiftRight, toNat_tokenItem hrow htag, Nat.shiftRight_eq_div_pow]
  omega

end Item

/-- The table that the two bits below a row stand for. -/
def taggedTable (tag : ILUInt32) : ILToken :=
  if tag = 0x00 then tokenTypeDef
  else if tag = 0x01 then tokenTypeRef
  else if tag = 0x02 then tokenTypeSpec
  else tokenBaseType

theorem ilMetaUncompressToken_item {row tag : ILUInt32} (hrow : row.toNat < 2 ^ 24)
    (htag : tag.toNat < 2 ^ 2) (rest : List ILUInt8) :
    ilMetaUncompressToken ⟨ilMetaCompressData (row <<< 2 ||| tag) ++ rest, false⟩ =
      (row ||| taggedTable tag, ⟨rest, false⟩) := by
  rw [ilMetaUncompressToken, ilMetaUncompressData_compressData]
  dsimp only
  rw [if_neg (by decide), tokenItem_tag hrow htag, tokenItem_row hrow htag]
  unfold taggedTable
  split_ifs <;> rfl

theorem ilMetaCompressToken_eq {token : ILToken} (h : HasTag token) :
    ∃ tag : ILUInt32, tag.toNat < 2 ^ 2 ∧ taggedTable tag = token &&& tokenMask ∧
      ilMetaCompressToken token = ilMetaCompressData ((token &&& ~~~tokenMask) <<< 2 ||| tag) := by
  unfold ilMetaCompressToken
  rcases h with h | h | h | h
  · exact ⟨0x00, by decide, by rw [h]; decide, by rw [h, if_pos rfl]⟩
  · exact ⟨0x01, by decide, by rw [h]; decide, by rw [h, if_neg (by decide), if_pos rfl]⟩
  · exact ⟨0x02, by decide, by rw [h]; decide,
      by rw [h, if_neg (by decide), if_neg (by decide), if_pos rfl]⟩
  · exact ⟨0x03, by decide, by rw [h]; decide,
      by rw [h, if_neg (by decide), if_neg (by decide), if_neg (by decide), if_pos rfl]⟩

theorem ilMetaUncompressToken_compressToken {token : ILToken} (h : HasTag token)
    (rest : List ILUInt8) :
    ilMetaUncompressToken ⟨ilMetaCompressToken token ++ rest, false⟩ =
      (token, ⟨rest, false⟩) := by
  obtain ⟨tag, htag, htable, hwrite⟩ := ilMetaCompressToken_eq h
  rw [hwrite, ilMetaUncompressToken_item (toNat_tokenId token) htag, htable, tokenId_or_table]

/-! ### A stream of values and tokens -/

inductive MetaKind where
  | data
  | token
deriving DecidableEq, Repr

/-- A value, or a token of one of the four tables. -/
structure MetaItem where
  kind : MetaKind
  value : ILUInt32
  valid : kind = .token → HasTag value

def ilMetaCompress : MetaKind → ILUInt32 → List ILUInt8
  | .data => ilMetaCompressData
  | .token => ilMetaCompressToken

def ilMetaUncompress : MetaKind → ILMetaDataRead → ILUInt32 × ILMetaDataRead
  | .data => ilMetaUncompressData
  | .token => ilMetaUncompressToken

/-- One decoder call after the other; the caller knows what comes next. -/
def ilMetaUncompressAll : List MetaKind → ILMetaDataRead → List ILUInt32 × ILMetaDataRead
  | [], reader => ([], reader)
  | kind :: kinds, reader =>
    let (value, reader) := ilMetaUncompress kind reader
    let (values, reader) := ilMetaUncompressAll kinds reader
    (value :: values, reader)

def MetaItem.compress (item : MetaItem) : List ILUInt8 := ilMetaCompress item.kind item.value

theorem ilMetaUncompress_compress (item : MetaItem) (rest : List ILUInt8) :
    ilMetaUncompress item.kind (readerAt (item.compress ++ rest)) =
      (item.value, readerAt rest) := by
  obtain ⟨kind, value, valid⟩ := item
  cases kind with
  | data => exact ilMetaUncompressData_compressData value rest
  | token => exact ilMetaUncompressToken_compressToken (valid rfl) rest

theorem ilMetaUncompressAll_compress (items : List MetaItem) (rest : List ILUInt8) :
    ilMetaUncompressAll (items.map MetaItem.kind)
        (readerAt (items.flatMap MetaItem.compress ++ rest)) =
      (items.map MetaItem.value, readerAt rest) := by
  induction items with
  | nil => rfl
  | cons item items ih =>
    rw [List.flatMap_cons, List.append_assoc, List.map_cons, ilMetaUncompressAll,
      ilMetaUncompress_compress]
    dsimp only
    rw [ih]
    rfl

/-! ### Reading memory -/

/-- The number of bytes that a first byte announces, with itself; there is no form with a first
byte above. -/
def formLength (ch : ILUInt8) : Option Nat :=
  if ch < 0x80 then some 1
  else if ch &&& 0xC0 = 0x80 then some 2
  else if ch &&& 0xE0 = 0xC0 then some 4
  else if ch &&& 0xF0 = 0xE0 then some 5
  else none

/-- The bytes begin with a whole item. -/
def HoldsItem (bytes : List ILUInt8) : Prop :=
  ∃ ch rest n, bytes = ch :: rest ∧ formLength ch = some n ∧ n ≤ bytes.length

theorem not_holdsItem_nil : ¬ HoldsItem [] := by
  rintro ⟨ch, rest, n, hbytes, _⟩
  cases hbytes

theorem holdsItem_cons (ch : ILUInt8) (bytes : List ILUInt8) :
    HoldsItem (ch :: bytes) ↔ ∃ n, formLength ch = some n ∧ n ≤ bytes.length + 1 := by
  constructor
  · rintro ⟨ch, bytes, n, hbytes, hform, hfits⟩
    cases hbytes
    exact ⟨n, hform, hfits⟩
  · rintro ⟨n, hform, hfits⟩
    exact ⟨ch, bytes, n, rfl, hform, hfits⟩

/-- Only a whole item is read without an error. -/
theorem ilMetaUncompressData_error_iff (reader : ILMetaDataRead) :
    (ilMetaUncompressData reader).2.error = true ↔
      reader.error = true ∨ ¬ HoldsItem reader.data := by
  obtain ⟨bytes, error⟩ := reader
  unfold ilMetaUncompressData
  cases bytes with
  | nil => simp [not_holdsItem_nil]
  | cons ch bytes =>
    dsimp only
    rw [holdsItem_cons, formLength]
    split_ifs with h1 h2 h3 h4
    · simp
    · cases bytes <;> simp [ILMetaDataRead.fail]
    · rcases bytes with _ | ⟨ch2, _ | ⟨ch3, _ | ⟨ch4, bytes⟩⟩⟩ <;> simp [ILMetaDataRead.fail]
    · rcases bytes with _ | ⟨ch2, _ | ⟨ch3, _ | ⟨ch4, _ | ⟨ch5, bytes⟩⟩⟩⟩ <;>
        simp [ILMetaDataRead.fail]
    · simp [ILMetaDataRead.fail]

/-- The pointer and the count say where the bytes that are left lie in memory. -/
def Shows (memory : Nat → Option ILUInt8) (pointer : ILMetaDataPointer)
    (reader : ILMetaDataRead) : Prop :=
  pointer.len = reader.data.length ∧ pointer.error = reader.error ∧
    ∀ i (hi : i < reader.data.length), memory (pointer.data + i) = some reader.data[i]

section Memory

variable {memory : Nat → Option ILUInt8} {data : Nat}

theorem Shows.nil (len : Nat) (error : Bool) (h : len = 0) :
    Shows memory ⟨data, len, error⟩ ⟨[], error⟩ :=
  ⟨h, rfl, fun _ hi => absurd hi (Nat.not_lt_zero _)⟩

theorem Shows.head {len : Nat} {error : Bool} {ch : ILUInt8} {bytes : List ILUInt8}
    (h : Shows memory ⟨data, len, error⟩ ⟨ch :: bytes, error⟩) :
    memory data = some ch ∧ Shows memory ⟨data + 1, len - 1, error⟩ ⟨bytes, error⟩ := by
  obtain ⟨hlen, _, hbytes⟩ := h
  refine ⟨hbytes 0 (Nat.succ_pos _), ?_, rfl, ?_⟩
  · dsimp only at hlen ⊢
    rw [hlen]
    rfl
  · intro i hi
    have hbyte : memory (data + (i + 1)) = some bytes[i] := hbytes (i + 1) (Nat.succ_lt_succ hi)
    rw [Nat.add_comm i 1, ← Nat.add_assoc] at hbyte
    exact hbyte

/-- The reader with a pointer does what the reader of a list does, and reads no other byte. -/
theorem ilMetaUncompressDataAt_shows {pointer : ILMetaDataPointer} {reader : ILMetaDataRead}
    (h : Shows memory pointer reader) :
    ∃ pointer', ilMetaUncompressDataAt memory pointer =
        some ((ilMetaUncompressData reader).1, pointer') ∧
      Shows memory pointer' (ilMetaUncompressData reader).2 := by
  obtain ⟨data, len, error⟩ := pointer
  obtain ⟨bytes, error'⟩ := reader
  obtain rfl : error = error' := h.2.1
  have hlen : len = bytes.length := h.1
  unfold ilMetaUncompressDataAt ilMetaUncompressData
  dsimp only
  cases bytes with
  | nil =>
    have hempty : len = 0 := hlen
    rw [if_pos hempty]
    exact ⟨_, rfl, .nil _ _ hempty⟩
  | cons ch bytes =>
    obtain ⟨hch, h1⟩ := h.head
    have hlen1 : len - 1 = bytes.length := h1.1
    rw [if_neg (by rw [hlen]; exact Nat.succ_ne_zero _), hch, Option.bind_some]
    dsimp only
    split_ifs with hone htwo hempty hfour hshort hfive hshort
    · exact ⟨_, rfl, h1⟩
    · rw [hlen1, List.length_eq_zero_iff] at hempty
      subst hempty
      exact ⟨_, rfl, .nil _ _ hlen1⟩
    · cases bytes with
      | nil => exact absurd hlen1 hempty
      | cons ch2 bytes =>
        obtain ⟨hch2, h2⟩ := h1.head
        rw [hch2, Option.bind_some]
        exact ⟨_, rfl, h2⟩
    · rw [hlen1] at hshort
      rcases bytes with _ | ⟨ch2, _ | ⟨ch3, _ | ⟨ch4, bytes⟩⟩⟩
      · exact ⟨_, rfl, .nil _ _ rfl⟩
      · exact ⟨_, rfl, .nil _ _ rfl⟩
      · exact ⟨_, rfl, .nil _ _ rfl⟩
      · exact absurd hshort (by simp)
    · rw [hlen1] at hshort
      rcases bytes with _ | ⟨ch2, _ | ⟨ch3, _ | ⟨ch4, bytes⟩⟩⟩
      · exact absurd (show 0 < 3 by decide) hshort
      · exact absurd (show 1 < 3 by decide) hshort
      · exact absurd (show 2 < 3 by decide) hshort
      · obtain ⟨hch2, h2⟩ := h1.head
        obtain ⟨hch3, h3⟩ := h2.head
        obtain ⟨hch4, h4⟩ := h3.head
        rw [hch2, Option.bind_some, hch3, Option.bind_some, hch4, Option.bind_some]
        exact ⟨_, rfl, h4⟩
    · rw [hlen1] at hshort
      rcases bytes with _ | ⟨ch2, _ | ⟨ch3, _ | ⟨ch4, _ | ⟨ch5, bytes⟩⟩⟩⟩
      · exact ⟨_, rfl, .nil _ _ rfl⟩
      · exact ⟨_, rfl, .nil _ _ rfl⟩
      · exact ⟨_, rfl, .nil _ _ rfl⟩
      · exact ⟨_, rfl, .nil _ _ rfl⟩
      · exact absurd hshort (by simp)
    · rw [hlen1] at hshort
      rcases bytes with _ | ⟨ch2, _ | ⟨ch3, _ | ⟨ch4, _ | ⟨ch5, bytes⟩⟩⟩⟩
      · exact absurd (show 0 < 4 by decide) hshort
      · exact absurd (show 1 < 4 by decide) hshort
      · exact absurd (show 2 < 4 by decide) hshort
      · exact absurd (show 3 < 4 by decide) hshort
      · obtain ⟨hch2, h2⟩ := h1.head
        obtain ⟨hch3, h3⟩ := h2.head
        obtain ⟨hch4, h4⟩ := h3.head
        obtain ⟨hch5, h5⟩ := h4.head
        rw [hch2, Option.bind_some, hch3, Option.bind_some, hch4, Option.bind_some, hch5,
          Option.bind_some]
        exact ⟨_, rfl, h5⟩
    · exact ⟨_, rfl, .nil _ _ rfl⟩

theorem ilMetaUncompressTokenAt_shows {pointer : ILMetaDataPointer} {reader : ILMetaDataRead}
    (h : Shows memory pointer reader) :
    ∃ pointer', ilMetaUncompressTokenAt memory pointer =
        some ((ilMetaUncompressToken reader).1, pointer') ∧
      Shows memory pointer' (ilMetaUncompressToken reader).2 := by
  obtain ⟨pointer', hread, hshows⟩ := ilMetaUncompressDataAt_shows h
  have herror := hshows.2.1
  unfold ilMetaUncompressTokenAt ilMetaUncompressToken
  rw [hread, Option.map_some]
  dsimp only
  rw [herror]
  split_ifs
  · exact ⟨_, rfl, hshows⟩
  · exact ⟨_, rfl, hshows⟩
  · exact ⟨_, rfl, hshows⟩
  · exact ⟨_, rfl, hshows⟩
  · exact ⟨_, rfl, hshows⟩

theorem ilMetaUncompressToken_reader (reader : ILMetaDataRead) :
    (ilMetaUncompressToken reader).2 = (ilMetaUncompressData reader).2 := by
  unfold ilMetaUncompressToken
  dsimp only
  split_ifs <;> rfl

end Memory

def ilMetaUncompressAt (memory : Nat → Option ILUInt8) :
    MetaKind → ILMetaDataPointer → Option (ILUInt32 × ILMetaDataPointer)
  | .data => ilMetaUncompressDataAt memory
  | .token => ilMetaUncompressTokenAt memory

def ilMetaUncompressAllAt (memory : Nat → Option ILUInt8) :
    List MetaKind → ILMetaDataPointer → Option (List ILUInt32 × ILMetaDataPointer)
  | [], pointer => some ([], pointer)
  | kind :: kinds, pointer =>
    (ilMetaUncompressAt memory kind pointer).bind fun (value, pointer) =>
    (ilMetaUncompressAllAt memory kinds pointer).map fun (values, pointer) =>
    (value :: values, pointer)

theorem ilMetaUncompressAt_shows {memory : Nat → Option ILUInt8} {pointer : ILMetaDataPointer}
    {reader : ILMetaDataRead} (h : Shows memory pointer reader) (kind : MetaKind) :
    ∃ pointer', ilMetaUncompressAt memory kind pointer =
        some ((ilMetaUncompress kind reader).1, pointer') ∧
      Shows memory pointer' (ilMetaUncompress kind reader).2 := by
  cases kind with
  | data => exact ilMetaUncompressDataAt_shows h
  | token => exact ilMetaUncompressTokenAt_shows h

theorem ilMetaUncompressAllAt_shows {memory : Nat → Option ILUInt8} {pointer : ILMetaDataPointer}
    {reader : ILMetaDataRead} (h : Shows memory pointer reader) (kinds : List MetaKind) :
    ∃ pointer', ilMetaUncompressAllAt memory kinds pointer =
        some ((ilMetaUncompressAll kinds reader).1, pointer') ∧
      Shows memory pointer' (ilMetaUncompressAll kinds reader).2 := by
  induction kinds generalizing pointer reader with
  | nil => exact ⟨pointer, rfl, h⟩
  | cons kind kinds ih =>
    obtain ⟨pointer1, hread, h1⟩ := ilMetaUncompressAt_shows h kind
    obtain ⟨pointer2, hrest, h2⟩ := ih h1
    refine ⟨pointer2, ?_, h2⟩
    rw [ilMetaUncompressAllAt, hread, Option.bind_some]
    dsimp only
    rw [hrest]
    rfl

theorem ilMetaUncompress_error_iff (kind : MetaKind) (reader : ILMetaDataRead) :
    (ilMetaUncompress kind reader).2.error = true ↔
      reader.error = true ∨ ¬ HoldsItem reader.data := by
  cases kind with
  | data => exact ilMetaUncompressData_error_iff reader
  | token =>
    rw [ilMetaUncompress, ilMetaUncompressToken_reader]
    exact ilMetaUncompressData_error_iff reader

/-- Memory of which only these bytes may be read. -/
def onlyBytes (start : Nat) (bytes : List ILUInt8) (address : Nat) : Option ILUInt8 :=
  if start ≤ address then bytes[address - start]? else none

theorem shows_onlyBytes (start : Nat) (bytes : List ILUInt8) (error : Bool) :
    Shows (onlyBytes start bytes) ⟨start, bytes.length, error⟩ ⟨bytes, error⟩ := by
  refine ⟨rfl, rfl, fun i hi => ?_⟩
  dsimp only [onlyBytes]
  rw [if_pos (Nat.le_add_right start i), Nat.add_sub_cancel_left, List.getElem?_eq_getElem hi]

/-- Values and tokens that are encoded one after the other come back in their order, and all
their bytes are consumed. Whatever the bytes, the decoders read none behind them, and one call
reports an error just when they do not begin with a whole item. -/
theorem ilMetaCompress_stream :
    (∀ (items : List MetaItem) (rest : List ILUInt8),
      ilMetaUncompressAll (items.map MetaItem.kind)
          (readerAt (items.flatMap MetaItem.compress ++ rest)) =
        (items.map MetaItem.value, readerAt rest)) ∧
    (∀ (start : Nat) (bytes : List ILUInt8) (kinds : List MetaKind), ∃ pointer,
      ilMetaUncompressAllAt (onlyBytes start bytes) kinds ⟨start, bytes.length, false⟩ =
          some ((ilMetaUncompressAll kinds (readerAt bytes)).1, pointer) ∧
        Shows (onlyBytes start bytes) pointer (ilMetaUncompressAll kinds (readerAt bytes)).2) ∧
    ∀ (kind : MetaKind) (reader : ILMetaDataRead),
      (ilMetaUncompress kind reader).2.error = true ↔
        reader.error = true ∨ ¬ HoldsItem reader.data :=
  ⟨ilMetaUncompressAll_compress,
    fun start bytes kinds => ilMetaUncompressAllAt_shows (shows_onlyBytes start bytes false) kinds,
    ilMetaUncompress_error_iff⟩

end Pnet.Image
