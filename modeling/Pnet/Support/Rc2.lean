import Pnet.CTypes
import Pnet.Lib.Bits
import Pnet.Lib.Folds

/-! The cipher of `rc2.c`. -/
namespace Pnet.Support

/-- `IL_READ_UINT16(buf + posn)` -/
def readUInt16 (buf : List ILUInt8) (posn : Nat) : ILUInt16 :=
  (buf.getD posn 0).setWidth 16 ||| (buf.getD (posn + 1) 0).setWidth 16 <<< 8

/-- `IL_WRITE_UINT16` -/
def writeUInt16 (value : ILUInt16) : List ILUInt8 :=
  [value.setWidth 8, (value >>> 8).setWidth 8]

namespace RC2

def PITABLE : List ILUInt8 :=
  [0xd9, 0x78, 0xf9, 0xc4, 0x19, 0xdd, 0xb5, 0xed, 0x28, 0xe9, 0xfd, 0x79, 0x4a, 0xa0,
   0xd8, 0x9d, 0xc6, 0x7e, 0x37, 0x83, 0x2b, 0x76, 0x53, 0x8e, 0x62, 0x4c, 0x64, 0x88,
   0x44, 0x8b, 0xfb, 0xa2, 0x17, 0x9a, 0x59, 0xf5, 0x87, 0xb3, 0x4f, 0x13, 0x61, 0x45,
   0x6d, 0x8d, 0x09, 0x81, 0x7d, 0x32, 0xbd, 0x8f, 0x40, 0xeb, 0x86, 0xb7, 0x7b, 0x0b,
   0xf0, 0x95, 0x21, 0x22, 0x5c, 0x6b, 0x4e, 0x82, 0x54, 0xd6, 0x65, 0x93, 0xce, 0x60,
   0xb2, 0x1c, 0x73, 0x56, 0xc0, 0x14, 0xa7, 0x8c, 0xf1, 0xdc, 0x12, 0x75, 0xca, 0x1f,
   0x3b, 0xbe, 0xe4, 0xd1, 0x42, 0x3d, 0xd4, 0x30, 0xa3, 0x3c, 0xb6, 0x26, 0x6f, 0xbf,
   0x0e, 0xda, 0x46, 0x69, 0x07, 0x57, 0x27, 0xf2, 0x1d, 0x9b, 0xbc, 0x94, 0x43, 0x03,
   0xf8, 0x11, 0xc7, 0xf6, 0x90, 0xef, 0x3e, 0xe7, 0x06, 0xc3, 0xd5, 0x2f, 0xc8, 0x66,
   0x1e, 0xd7, 0x08, 0xe8, 0xea, 0xde, 0x80, 0x52, 0xee, 0xf7, 0x84, 0xaa, 0x72, 0xac,
   0x35, 0x4d, 0x6a, 0x2a, 0x96, 0x1a, 0xd2, 0x71, 0x5a, 0x15, 0x49, 0x74, 0x4b, 0x9f,
   0xd0, 0x5e, 0x04, 0x18, 0xa4, 0xec, 0xc2, 0xe0, 0x41, 0x6e, 0x0f, 0x51, 0xcb, 0xcc,
   0x24, 0x91, 0xaf, 0x50, 0xa1, 0xf4, 0x70, 0x39, 0x99, 0x7c, 0x3a, 0x85, 0x23, 0xb8,
   0xb4, 0x7a, 0xfc, 0x02, 0x36, 0x5b, 0x25, 0x55, 0x97, 0x31, 0x2d, 0x5d, 0xfa, 0x98,
   0xe3, 0x8a, 0x92, 0xae, 0x05, 0xdf, 0x29, 0x10, 0x67, 0x6c, 0xba, 0xc9, 0xd3, 0x00,
   0xe6, 0xcf, 0xe1, 0x9e, 0xa8, 0x2c, 0x63, 0x16, 0x01, 0x3f, 0x58, 0xe2, 0x89, 0xa9,
   0x0d, 0x38, 0x34, 0x1b, 0xab, 0x33, 0xff, 0xb0, 0xbb, 0x48, 0x0c, 0x5f, 0xb9, 0xb1,
   0xcd, 0x2e, 0xc5, 0xf3, 0xdb, 0x47, 0xe5, 0xa5, 0x9c, 0x77, 0x0a, 0xa6, 0x20, 0x68,
   0xfe, 0x7f, 0xc1, 0xad]

structure ILRC2Context where
  key : List ILUInt16
deriving DecidableEq, Repr

def ilRC2Init (key : List ILUInt8) (keyBits : Nat) : ILRC2Context :=
  let pi (x : ILUInt8) := PITABLE.getD x.toNat 0
  let size := if keyBits ≤ 128 * 8 then (keyBits + 7) / 8 else 128
  let mask : ILUInt8 :=
    if keyBits ≤ 128 * 8 then BitVec.ofNat 8 (2 ^ (8 - (8 * size - keyBits)) - 1) else 0xFF
  -- the key at the front of the expanded key schedule
  let sched := (List.range 128).map fun posn => if posn < size then key.getD posn 0 else 0
  let sched := (List.range' size (128 - size)).foldl (fun sched posn =>
    sched.set posn (pi (sched.getD (posn - 1) 0 + sched.getD (posn - size) 0))) sched
  let sched := sched.set (128 - size) (pi (sched.getD (128 - size) 0 &&& mask))
  let sched := (List.range (128 - size)).reverse.foldl (fun sched posn =>
    sched.set posn (pi (sched.getD (posn + 1) 0 ^^^ sched.getD (posn + size) 0))) sched
  ⟨(List.range 64).map fun posn => readUInt16 sched (posn * 2)⟩

/-- The array `R`; its indices are taken modulo 4. -/
structure Words where
  R0 : ILUInt16
  R1 : ILUInt16
  R2 : ILUInt16
  R3 : ILUInt16
deriving DecidableEq, Repr

namespace Words

def get (R : Words) : Fin 4 → ILUInt16
  | 0 => R.R0
  | 1 => R.R1
  | 2 => R.R2
  | 3 => R.R3

def set (R : Words) (rindex : Fin 4) (x : ILUInt16) : Words :=
  match rindex with
  | 0 => { R with R0 := x }
  | 1 => { R with R1 := x }
  | 2 => { R with R2 := x }
  | 3 => { R with R3 := x }

end Words

variable (K : List ILUInt16)

/-- What a "mix" adds to a word. -/
def mixTerm (R : Words) (rindex : Fin 4) (kindex : Nat) : ILUInt16 :=
  K.getD kindex 0 + (R.get (rindex - 1) &&& R.get (rindex - 2)) +
    (~~~R.get (rindex - 1) &&& R.get (rindex - 3))

def mix (R : Words) (rindex : Fin 4) (kindex svalue : Nat) : Words :=
  let sum := R.get rindex + mixTerm K R rindex kindex
  R.set rindex (sum <<< svalue ||| sum >>> (16 - svalue))

def mixRound (R : Words) (kindex : Nat) : Words :=
  mix K (mix K (mix K (mix K R 0 kindex 1) 1 (kindex + 1) 2) 2 (kindex + 2) 3) 3 (kindex + 3) 5

/-- What a "mash" adds to a word. -/
def mashTerm (R : Words) (rindex : Fin 4) : ILUInt16 :=
  K.getD (R.get (rindex - 1) &&& 63).toNat 0

def mash (R : Words) (rindex : Fin 4) : Words :=
  R.set rindex (R.get rindex + mashTerm K R rindex)

def mashRound (R : Words) : Words := mash K (mash K (mash K (mash K R 0) 1) 2) 3

def rmix (R : Words) (rindex : Fin 4) (kindex svalue : Nat) : Words :=
  let rotated := R.get rindex >>> svalue ||| R.get rindex <<< (16 - svalue)
  R.set rindex (rotated - mixTerm K R rindex kindex)

def rmixRound (R : Words) (kindex : Nat) : Words :=
  rmix K (rmix K (rmix K (rmix K R 3 (kindex + 3) 5) 2 (kindex + 2) 3) 1 (kindex + 1) 2) 0 kindex 1

def rmash (R : Words) (rindex : Fin 4) : Words :=
  R.set rindex (R.get rindex - mashTerm K R rindex)

def rmashRound (R : Words) : Words := rmash K (rmash K (rmash K (rmash K R 3) 2) 1) 0

def unpack (input : List ILUInt8) : Words :=
  ⟨readUInt16 input 0, readUInt16 input 2, readUInt16 input 4, readUInt16 input 6⟩

def pack (R : Words) : List ILUInt8 :=
  writeUInt16 R.R0 ++ writeUInt16 R.R1 ++ writeUInt16 R.R2 ++ writeUInt16 R.R3

def ilRC2Encrypt (rc2 : ILRC2Context) (input : List ILUInt8) : List ILUInt8 :=
  let R := [0, 4, 8, 12, 16].foldl (mixRound rc2.key) (unpack input)
  let R := mashRound rc2.key R
  let R := [20, 24, 28, 32, 36, 40].foldl (mixRound rc2.key) R
  let R := mashRound rc2.key R
  let R := [44, 48, 52, 56, 60].foldl (mixRound rc2.key) R
  pack R

def ilRC2Decrypt (rc2 : ILRC2Context) (input : List ILUInt8) : List ILUInt8 :=
  let R := [60, 56, 52, 48, 44].foldl (rmixRound rc2.key) (unpack input)
  let R := rmashRound rc2.key R
  let R := [40, 36, 32, 28, 24, 20].foldl (rmixRound rc2.key) R
  let R := rmashRound rc2.key R
  let R := [16, 12, 8, 4, 0].foldl (rmixRound rc2.key) R
  pack R

end RC2

end Pnet.Support

/-! ### Decryption

Decryption takes back what the encryption of `rc2.c` does, whatever the words of the key are. -/
namespace Pnet.Support
open Lib.Bits Lib.ByteJoin Lib.Undo

/-! ### Words of two bytes -/

theorem join_bytes16 (x : ILUInt16) :
    (x.setWidth 8).setWidth 16 ||| ((x >>> 8).setWidth 8).setWidth 16 <<< 8 = x := by
  apply BitVec.eq_of_toNat_eq
  have hx := x.isLt
  rw [toNat_two _ _ le_rfl, toNat_setWidth_ushiftRight, BitVec.toNat_setWidth]
  omega

theorem writeUInt16_read (a b : ILUInt8) :
    writeUInt16 (a.setWidth 16 ||| b.setWidth 16 <<< 8) = [a, b] := by
  have htwo := toNat_two a b (w := 16) le_rfl
  have ha := a.isLt
  have hb := b.isLt
  have hlow := setWidth_eq_of_toNat a (k := 0) (by rw [htwo]; omega)
  have hhigh := setWidth_eq_of_toNat b (k := 8) (by rw [htwo]; omega)
  rw [BitVec.ushiftRight_zero] at hlow
  rw [writeUInt16, hlow, hhigh]

namespace RC2

variable (K : List ILUInt16) (R : Words)

/-! ### The array -/

namespace Words

variable {R : Words} {i j : Fin 4} {x y : ILUInt16}

@[simp] theorem get_set_self : (R.set i x).get i = x := by
  match i with
  | 0 | 1 | 2 | 3 => rfl

theorem get_set_of_ne (h : j ≠ i) : (R.set i x).get j = R.get j := by
  match i, j with
  | 0, 0 | 1, 1 | 2, 2 | 3, 3 => exact absurd rfl h
  | 0, 1 | 0, 2 | 0, 3 | 1, 0 | 1, 2 | 1, 3 | 2, 0 | 2, 1 | 2, 3 | 3, 0 | 3, 1 | 3, 2 => rfl

@[simp] theorem set_set : (R.set i x).set i y = R.set i y := by
  match i with
  | 0 | 1 | 2 | 3 => rfl

@[simp] theorem set_get : R.set i (R.get i) = R := by
  match i with
  | 0 | 1 | 2 | 3 => rfl

end Words

theorem mixTerm_set (i : Fin 4) (kindex : Nat) (x : ILUInt16) :
    mixTerm K (R.set i x) i kindex = mixTerm K R i kindex := by
  have hone : i - 1 ≠ i := by revert i; decide
  have htwo : i - 2 ≠ i := by revert i; decide
  have hthree : i - 3 ≠ i := by revert i; decide
  rw [mixTerm, mixTerm, Words.get_set_of_ne hone, Words.get_set_of_ne htwo,
    Words.get_set_of_ne hthree]

theorem mashTerm_set (i : Fin 4) (x : ILUInt16) :
    mashTerm K (R.set i x) i = mashTerm K R i := by
  have hone : i - 1 ≠ i := by revert i; decide
  rw [mashTerm, mashTerm, Words.get_set_of_ne hone]

/-! ### The rounds -/

theorem rmix_mix (i : Fin 4) (kindex : Nat) {svalue : Nat} (hs : svalue ≤ 16) :
    rmix K (mix K R i kindex svalue) i kindex svalue = R := by
  have hrotate := rotate_back (R.get i + mixTerm K R i kindex) hs
  rw [BitVec.or_comm] at hrotate
  rw [rmix, mix]
  simp only [Words.get_set_self, mixTerm_set, hrotate, Words.set_set, BitVec.add_sub_cancel,
    Words.set_get]

theorem rmash_mash (i : Fin 4) : rmash K (mash K R i) i = R := by
  rw [rmash, mash]
  simp only [Words.get_set_self, mashTerm_set, Words.set_set, BitVec.add_sub_cancel,
    Words.set_get]

theorem rmixRound_mixRound (kindex : Nat) : rmixRound K (mixRound K R kindex) kindex = R := by
  rw [rmixRound, mixRound, rmix_mix, rmix_mix, rmix_mix, rmix_mix]
  all_goals decide

theorem rmashRound_mashRound : rmashRound K (mashRound K R) = R := by
  rw [rmashRound, mashRound, rmash_mash, rmash_mash, rmash_mash, rmash_mash]

/-- Rounds in reverse order. -/
theorem foldl_rmixRound (kindices : List Nat) :
    kindices.reverse.foldl (rmixRound K) (kindices.foldl (mixRound K) R) = R :=
  foldl_reverse_undo (mixRound K) (rmixRound K) (rmixRound_mixRound K) R kindices

/-! ### Blocks -/

theorem unpack_pack : unpack (pack R) = R :=
  congr (congr (congr (congrArg Words.mk (join_bytes16 R.R0)) (join_bytes16 R.R1))
    (join_bytes16 R.R2)) (join_bytes16 R.R3)

theorem pack_unpack {block : List ILUInt8} (hblock : block.length = 8) :
    pack (unpack block) = block := by
  match block, hblock with
  | [a, b, c, d, e, f, g, h], _ =>
    change writeUInt16 _ ++ writeUInt16 _ ++ writeUInt16 _ ++ writeUInt16 _ = _
    exact congrArg₂ (· ++ ·) (congrArg₂ (· ++ ·) (congrArg₂ (· ++ ·) (writeUInt16_read a b)
      (writeUInt16_read c d)) (writeUInt16_read e f)) (writeUInt16_read g h)

theorem decrypt_encrypt (rc2 : ILRC2Context) {block : List ILUInt8} (hblock : block.length = 8) :
    ilRC2Decrypt rc2 (ilRC2Encrypt rc2 block) = block := by
  have hback := foldl_rmixRound rc2.key
  unfold ilRC2Decrypt ilRC2Encrypt
  simp only [unpack_pack]
  rw [show [60, 56, 52, 48, 44] = [44, 48, 52, 56, 60].reverse from rfl, hback,
    rmashRound_mashRound,
    show [40, 36, 32, 28, 24, 20] = [20, 24, 28, 32, 36, 40].reverse from rfl, hback,
    rmashRound_mashRound, show [16, 12, 8, 4, 0] = [0, 4, 8, 12, 16].reverse from rfl, hback,
    pack_unpack hblock]

end RC2

end Pnet.Support
