import Pnet.CTypes
import Pnet.Lib.Bits

/-! The cipher of `aes.c`. Shifts of signed columns lose what is shifted out. -/
namespace Pnet.Support

/-- `IL_BREAD_INT32(buf + posn)` and `IL_BREAD_UINT32(buf + posn)` -/
def breadInt32 (buf : List ILUInt8) (posn : Nat) : ILInt32 :=
  (buf.getD (posn + 3) 0).setWidth 32 ||| (buf.getD (posn + 2) 0).setWidth 32 <<< 8 |||
    (buf.getD (posn + 1) 0).setWidth 32 <<< 16 ||| (buf.getD posn 0).setWidth 32 <<< 24

/-- `IL_BWRITE_INT32` and `IL_BWRITE_UINT32` -/
def bwriteInt32 (value : ILInt32) : List ILUInt8 :=
  [(value >>> 24).setWidth 8, (value >>> 16).setWidth 8, (value >>> 8).setWidth 8,
    value.setWidth 8]

namespace AES

def sbox : List ILUInt8 :=
  [0x63, 0x7c, 0x77, 0x7b, 0xf2, 0x6b, 0x6f, 0xc5, 0x30, 0x01, 0x67, 0x2b, 0xfe, 0xd7,
   0xab, 0x76, 0xca, 0x82, 0xc9, 0x7d, 0xfa, 0x59, 0x47, 0xf0, 0xad, 0xd4, 0xa2, 0xaf,
   0x9c, 0xa4, 0x72, 0xc0, 0xb7, 0xfd, 0x93, 0x26, 0x36, 0x3f, 0xf7, 0xcc, 0x34, 0xa5,
   0xe5, 0xf1, 0x71, 0xd8, 0x31, 0x15, 0x04, 0xc7, 0x23, 0xc3, 0x18, 0x96, 0x05, 0x9a,
   0x07, 0x12, 0x80, 0xe2, 0xeb, 0x27, 0xb2, 0x75, 0x09, 0x83, 0x2c, 0x1a, 0x1b, 0x6e,
   0x5a, 0xa0, 0x52, 0x3b, 0xd6, 0xb3, 0x29, 0xe3, 0x2f, 0x84, 0x53, 0xd1, 0x00, 0xed,
   0x20, 0xfc, 0xb1, 0x5b, 0x6a, 0xcb, 0xbe, 0x39, 0x4a, 0x4c, 0x58, 0xcf, 0xd0, 0xef,
   0xaa, 0xfb, 0x43, 0x4d, 0x33, 0x85, 0x45, 0xf9, 0x02, 0x7f, 0x50, 0x3c, 0x9f, 0xa8,
   0x51, 0xa3, 0x40, 0x8f, 0x92, 0x9d, 0x38, 0xf5, 0xbc, 0xb6, 0xda, 0x21, 0x10, 0xff,
   0xf3, 0xd2, 0xcd, 0x0c, 0x13, 0xec, 0x5f, 0x97, 0x44, 0x17, 0xc4, 0xa7, 0x7e, 0x3d,
   0x64, 0x5d, 0x19, 0x73, 0x60, 0x81, 0x4f, 0xdc, 0x22, 0x2a, 0x90, 0x88, 0x46, 0xee,
   0xb8, 0x14, 0xde, 0x5e, 0x0b, 0xdb, 0xe0, 0x32, 0x3a, 0x0a, 0x49, 0x06, 0x24, 0x5c,
   0xc2, 0xd3, 0xac, 0x62, 0x91, 0x95, 0xe4, 0x79, 0xe7, 0xc8, 0x37, 0x6d, 0x8d, 0xd5,
   0x4e, 0xa9, 0x6c, 0x56, 0xf4, 0xea, 0x65, 0x7a, 0xae, 0x08, 0xba, 0x78, 0x25, 0x2e,
   0x1c, 0xa6, 0xb4, 0xc6, 0xe8, 0xdd, 0x74, 0x1f, 0x4b, 0xbd, 0x8b, 0x8a, 0x70, 0x3e,
   0xb5, 0x66, 0x48, 0x03, 0xf6, 0x0e, 0x61, 0x35, 0x57, 0xb9, 0x86, 0xc1, 0x1d, 0x9e,
   0xe1, 0xf8, 0x98, 0x11, 0x69, 0xd9, 0x8e, 0x94, 0x9b, 0x1e, 0x87, 0xe9, 0xce, 0x55,
   0x28, 0xdf, 0x8c, 0xa1, 0x89, 0x0d, 0xbf, 0xe6, 0x42, 0x68, 0x41, 0x99, 0x2d, 0x0f,
   0xb0, 0x54, 0xbb, 0x16]

def invsbox : List ILUInt8 :=
  [0x52, 0x09, 0x6a, 0xd5, 0x30, 0x36, 0xa5, 0x38, 0xbf, 0x40, 0xa3, 0x9e, 0x81, 0xf3,
   0xd7, 0xfb, 0x7c, 0xe3, 0x39, 0x82, 0x9b, 0x2f, 0xff, 0x87, 0x34, 0x8e, 0x43, 0x44,
   0xc4, 0xde, 0xe9, 0xcb, 0x54, 0x7b, 0x94, 0x32, 0xa6, 0xc2, 0x23, 0x3d, 0xee, 0x4c,
   0x95, 0x0b, 0x42, 0xfa, 0xc3, 0x4e, 0x08, 0x2e, 0xa1, 0x66, 0x28, 0xd9, 0x24, 0xb2,
   0x76, 0x5b, 0xa2, 0x49, 0x6d, 0x8b, 0xd1, 0x25, 0x72, 0xf8, 0xf6, 0x64, 0x86, 0x68,
   0x98, 0x16, 0xd4, 0xa4, 0x5c, 0xcc, 0x5d, 0x65, 0xb6, 0x92, 0x6c, 0x70, 0x48, 0x50,
   0xfd, 0xed, 0xb9, 0xda, 0x5e, 0x15, 0x46, 0x57, 0xa7, 0x8d, 0x9d, 0x84, 0x90, 0xd8,
   0xab, 0x00, 0x8c, 0xbc, 0xd3, 0x0a, 0xf7, 0xe4, 0x58, 0x05, 0xb8, 0xb3, 0x45, 0x06,
   0xd0, 0x2c, 0x1e, 0x8f, 0xca, 0x3f, 0x0f, 0x02, 0xc1, 0xaf, 0xbd, 0x03, 0x01, 0x13,
   0x8a, 0x6b, 0x3a, 0x91, 0x11, 0x41, 0x4f, 0x67, 0xdc, 0xea, 0x97, 0xf2, 0xcf, 0xce,
   0xf0, 0xb4, 0xe6, 0x73, 0x96, 0xac, 0x74, 0x22, 0xe7, 0xad, 0x35, 0x85, 0xe2, 0xf9,
   0x37, 0xe8, 0x1c, 0x75, 0xdf, 0x6e, 0x47, 0xf1, 0x1a, 0x71, 0x1d, 0x29, 0xc5, 0x89,
   0x6f, 0xb7, 0x62, 0x0e, 0xaa, 0x18, 0xbe, 0x1b, 0xfc, 0x56, 0x3e, 0x4b, 0xc6, 0xd2,
   0x79, 0x20, 0x9a, 0xdb, 0xc0, 0xfe, 0x78, 0xcd, 0x5a, 0xf4, 0x1f, 0xdd, 0xa8, 0x33,
   0x88, 0x07, 0xc7, 0x31, 0xb1, 0x12, 0x10, 0x59, 0x27, 0x80, 0xec, 0x5f, 0x60, 0x51,
   0x7f, 0xa9, 0x19, 0xb5, 0x4a, 0x0d, 0x2d, 0xe5, 0x7a, 0x9f, 0x93, 0xc9, 0x9c, 0xef,
   0xa0, 0xe0, 0x3b, 0x4d, 0xae, 0x2a, 0xf5, 0xb0, 0xc8, 0xeb, 0xbb, 0x3c, 0x83, 0x53,
   0x99, 0x61, 0x17, 0x2b, 0x04, 0x7e, 0xba, 0x77, 0xd6, 0x26, 0xe1, 0x69, 0x14, 0x63,
   0x55, 0x21, 0x0c, 0x7d]

/-- `temp <<= 1; if(temp >= 0x100) temp ^= 0x11B;` -/
def shiftReduce (temp : ILInt32) : ILInt32 :=
  if (temp <<< 1).toInt ≥ 0x100 then (temp <<< 1) ^^^ 0x11B else temp <<< 1

/-- The loop of `mult`; `bits` is enough for any `a` that is not negative. -/
def multLoop : Nat → ILInt32 → ILInt32 → ILInt32 → ILInt32
  | 0, _, _, result => result
  | bits + 1, a, temp, result =>
    if a = 0 then result
    else
      multLoop bits (a.sshiftRight 1) (shiftReduce temp)
        (if a &&& 1 ≠ 0 then result ^^^ shiftReduce temp else result)

/-- Perform a finite field multiplication in GF(2^8). -/
def mult (a b : ILInt32) : ILInt32 :=
  multLoop 32 (a.sshiftRight 1) b (if a &&& 1 ≠ 0 then b else 0)

/-- `(col >> posn) & 0xFF` -/
def byteOf (col : ILInt32) (posn : Nat) : ILInt32 := col.sshiftRight posn &&& 0xFF

def join (byte0 byte1 byte2 byte3 : ILInt32) : ILInt32 :=
  byte0 <<< 24 ||| byte1 <<< 16 ||| byte2 <<< 8 ||| byte3

def mix (col : ILInt32) : ILInt32 :=
  let byte0 := byteOf col 24
  let byte1 := byteOf col 16
  let byte2 := byteOf col 8
  let byte3 := byteOf col 0
  join (mult 2 byte0 ^^^ mult 3 byte1 ^^^ byte2 ^^^ byte3)
    (byte0 ^^^ mult 2 byte1 ^^^ mult 3 byte2 ^^^ byte3)
    (byte0 ^^^ byte1 ^^^ mult 2 byte2 ^^^ mult 3 byte3)
    (mult 3 byte0 ^^^ byte1 ^^^ byte2 ^^^ mult 2 byte3)

def unmix (col : ILInt32) : ILInt32 :=
  let byte0 := byteOf col 24
  let byte1 := byteOf col 16
  let byte2 := byteOf col 8
  let byte3 := byteOf col 0
  join (mult 14 byte0 ^^^ mult 11 byte1 ^^^ mult 13 byte2 ^^^ mult 9 byte3)
    (mult 9 byte0 ^^^ mult 14 byte1 ^^^ mult 11 byte2 ^^^ mult 13 byte3)
    (mult 13 byte0 ^^^ mult 9 byte1 ^^^ mult 14 byte2 ^^^ mult 11 byte3)
    (mult 11 byte0 ^^^ mult 13 byte1 ^^^ mult 9 byte2 ^^^ mult 14 byte3)

/-- `s[(col >> posn) & 0xFF]` -/
def lookup (s : List ILUInt8) (col : ILInt32) (posn : Nat) : ILInt32 :=
  (s.getD (byteOf col posn).toNat 0).setWidth 32

structure ILAESContext where
  numRounds : Nat
  keySchedule : List ILInt32
deriving DecidableEq, Repr

/-- One step of the expansion of a key of `nk` words, with the bit for `Rcon`. -/
def expandStep (nk : Nat) (schedule : List ILInt32 × ILInt32) (i : Nat) :
    List ILInt32 × ILInt32 :=
  let (keySchedule, bit) := schedule
  let temp := keySchedule.getD (i - 1) 0
  let (temp, bit) :=
    if i % nk = 0 then
      (join (lookup sbox temp 16) (lookup sbox temp 8) (lookup sbox temp 0)
        (lookup sbox temp 24) ^^^ bit <<< 24, shiftReduce bit)
    else if nk = 8 ∧ i % nk = 4 then
      (join (lookup sbox temp 24) (lookup sbox temp 16) (lookup sbox temp 8)
        (lookup sbox temp 0), bit)
    else (temp, bit)
  (keySchedule ++ [keySchedule.getD (i - nk) 0 ^^^ temp], bit)

def ilAESInit (key : List ILUInt8) (keyBits : Nat) : ILAESContext :=
  let numRounds := if keyBits = 128 then 10 else if keyBits = 192 then 12 else 14
  let nk := keyBits / 32
  let total := (numRounds + 1) * 4
  ⟨numRounds, ((List.range' nk (total - nk)).foldl (expandStep nk)
    ((List.range nk).map fun i => breadInt32 key (i * 4), 1)).1⟩

/-- The state columns. -/
structure Columns where
  col0 : ILInt32
  col1 : ILInt32
  col2 : ILInt32
  col3 : ILInt32
deriving DecidableEq, Repr

namespace Columns

variable (state : Columns)

def map (f : ILInt32 → ILInt32) : Columns :=
  ⟨f state.col0, f state.col1, f state.col2, f state.col3⟩

def addKey (ks : List ILInt32) (keyIndex : Nat) : Columns where
  col0 := state.col0 ^^^ ks.getD keyIndex 0
  col1 := state.col1 ^^^ ks.getD (keyIndex + 1) 0
  col2 := state.col2 ^^^ ks.getD (keyIndex + 2) 0
  col3 := state.col3 ^^^ ks.getD (keyIndex + 3) 0

/-- `SubBytes()` and `ShiftRows()` in one step. -/
def substitute (s : List ILUInt8) : Columns where
  col0 := join (lookup s state.col0 24) (lookup s state.col1 16) (lookup s state.col2 8)
    (lookup s state.col3 0)
  col1 := join (lookup s state.col1 24) (lookup s state.col2 16) (lookup s state.col3 8)
    (lookup s state.col0 0)
  col2 := join (lookup s state.col2 24) (lookup s state.col3 16) (lookup s state.col0 8)
    (lookup s state.col1 0)
  col3 := join (lookup s state.col3 24) (lookup s state.col0 16) (lookup s state.col1 8)
    (lookup s state.col2 0)

/-- `InvShiftRows()` and `InvSubBytes()` in one step. -/
def unsubstitute (s : List ILUInt8) : Columns where
  col0 := join (lookup s state.col0 24) (lookup s state.col3 16) (lookup s state.col2 8)
    (lookup s state.col1 0)
  col1 := join (lookup s state.col1 24) (lookup s state.col0 16) (lookup s state.col3 8)
    (lookup s state.col2 0)
  col2 := join (lookup s state.col2 24) (lookup s state.col1 16) (lookup s state.col0 8)
    (lookup s state.col3 0)
  col3 := join (lookup s state.col3 24) (lookup s state.col2 16) (lookup s state.col1 8)
    (lookup s state.col0 0)

end Columns

def unpack (input : List ILUInt8) : Columns :=
  ⟨breadInt32 input 0, breadInt32 input 4, breadInt32 input 8, breadInt32 input 12⟩

def pack (state : Columns) : List ILUInt8 :=
  bwriteInt32 state.col0 ++ bwriteInt32 state.col1 ++ bwriteInt32 state.col2 ++
    bwriteInt32 state.col3

/-- The rounds of the encryption, and the index of the next key. -/
def encryptRounds (ks : List ILInt32) : Nat → Nat → Columns → Columns × Nat
  | 0, keyIndex, state => (state, keyIndex)
  | round + 1, keyIndex, state =>
    encryptRounds ks round (keyIndex + 4) (((state.substitute sbox).map mix).addKey ks keyIndex)

/-- The rounds of the decryption, and the index of the last key. -/
def decryptRounds (ks : List ILInt32) : Nat → Nat → Columns → Columns × Nat
  | 0, keyIndex, state => (state, keyIndex)
  | round + 1, keyIndex, state =>
    decryptRounds ks round (keyIndex - 4)
      (((state.unsubstitute invsbox).addKey ks (keyIndex - 4)).map unmix)

def ilAESEncrypt (aes : ILAESContext) (input : List ILUInt8) : List ILUInt8 :=
  let (state, keyIndex) := encryptRounds aes.keySchedule (aes.numRounds - 1) 4
    ((unpack input).addKey aes.keySchedule 0)
  pack ((state.substitute sbox).addKey aes.keySchedule keyIndex)

def ilAESDecrypt (aes : ILAESContext) (input : List ILUInt8) : List ILUInt8 :=
  let (state, keyIndex) := decryptRounds aes.keySchedule (aes.numRounds - 1)
    (aes.numRounds * 4) ((unpack input).addKey aes.keySchedule (aes.numRounds * 4))
  pack ((state.unsubstitute invsbox).addKey aes.keySchedule (keyIndex - 4))

end AES

end Pnet.Support

/-! ### Decryption undoes encryption

Decryption takes back what the encryption of `aes.c` does, whatever the key schedule is. -/
namespace Pnet.Support
open Lib.Bits Lib.ByteJoin

/-! ### Words of four bytes -/

theorem toNat_bwrite (x : ILInt32) :
    (x.setWidth 8).toNat + ((x >>> 8).setWidth 8).toNat * 2 ^ 8 +
      ((x >>> 16).setWidth 8).toNat * 2 ^ 16 + ((x >>> 24).setWidth 8).toNat * 2 ^ 24 = x.toNat := by
  have hx := x.isLt
  rw [toNat_setWidth_ushiftRight, toNat_setWidth_ushiftRight, toNat_setWidth_ushiftRight,
    BitVec.toNat_setWidth]
  omega

theorem join_bytes32 (x : ILInt32) :
    (x.setWidth 8).setWidth 32 ||| ((x >>> 8).setWidth 8).setWidth 32 <<< 8 |||
      ((x >>> 16).setWidth 8).setWidth 32 <<< 16 ||| ((x >>> 24).setWidth 8).setWidth 32 <<< 24 =
      x := by
  apply BitVec.eq_of_toNat_eq
  rw [toNat_four _ _ _ _ le_rfl, toNat_bwrite]

/-- The bytes of a word that is joined from bytes. -/
theorem bytes_of_join32 (a b c d : ILUInt8) {x : ILInt32}
    (hx : x = d.setWidth 32 ||| c.setWidth 32 <<< 8 ||| b.setWidth 32 <<< 16 |||
      a.setWidth 32 <<< 24) :
    (x >>> 24).setWidth 8 = a ∧ (x >>> 16).setWidth 8 = b ∧ (x >>> 8).setWidth 8 = c ∧
      x.setWidth 8 = d := by
  have hfour := toNat_four d c b a (w := 32) le_rfl
  rw [← hx] at hfour
  have ha := a.isLt
  have hb := b.isLt
  have hc := c.isLt
  have hd := d.isLt
  have h0 := setWidth_eq_of_toNat d (k := 0) (by rw [hfour]; omega)
  have h8 := setWidth_eq_of_toNat c (k := 8) (by rw [hfour]; omega)
  have h16 := setWidth_eq_of_toNat b (k := 16) (by rw [hfour]; omega)
  have h24 := setWidth_eq_of_toNat a (k := 24) (by rw [hfour]; omega)
  rw [BitVec.ushiftRight_zero] at h0
  exact ⟨h24, h16, h8, h0⟩

theorem bwriteInt32_read (a b c d : ILUInt8) :
    bwriteInt32 (d.setWidth 32 ||| c.setWidth 32 <<< 8 ||| b.setWidth 32 <<< 16 |||
      a.setWidth 32 <<< 24) = [a, b, c, d] := by
  obtain ⟨h24, h16, h8, h0⟩ := bytes_of_join32 a b c d rfl
  rw [bwriteInt32, h24, h16, h8, h0]

namespace AES

/-! ### Bytes of a column -/

/-- A byte as a column holds it. -/
abbrev wide (byte : ILUInt8) : ILInt32 := byte.setWidth 32

theorem wide_xor (a b : ILUInt8) : wide a ^^^ wide b = wide (a ^^^ b) := by
  rw [wide, wide, wide, BitVec.setWidth_xor]

theorem byteOf_eq (col : ILInt32) {posn : Nat} (hposn : posn + 8 ≤ 32) :
    byteOf col posn = wide ((col >>> posn).setWidth 8) := by
  apply BitVec.eq_of_toNat_eq
  have hmask := toNat_and_mask (col.sshiftRight posn) 0xFF 8 rfl
  have hshift := congrArg BitVec.toNat (setWidth_sshiftRight col posn hposn)
  have hwide : (wide ((col >>> posn).setWidth 8)).toNat = ((col >>> posn).setWidth 8).toNat :=
    BitVec.toNat_setWidth_of_le (by decide)
  rw [BitVec.toNat_setWidth] at hshift
  rw [byteOf, hmask, hshift, hwide]

section Join

variable (a b c d : ILUInt8)

theorem join_wide : join (wide a) (wide b) (wide c) (wide d) =
    wide d ||| wide c <<< 8 ||| wide b <<< 16 ||| wide a <<< 24 := by
  rw [join]
  generalize wide a <<< 24 = x, wide b <<< 16 = y, wide c <<< 8 = z
  ac_rfl

@[simp] theorem byteOf_join_24 : byteOf (join (wide a) (wide b) (wide c) (wide d)) 24 = wide a := by
  rw [byteOf_eq _ (by decide), (bytes_of_join32 a b c d (join_wide a b c d)).1]

@[simp] theorem byteOf_join_16 : byteOf (join (wide a) (wide b) (wide c) (wide d)) 16 = wide b := by
  rw [byteOf_eq _ (by decide), (bytes_of_join32 a b c d (join_wide a b c d)).2.1]

@[simp] theorem byteOf_join_8 : byteOf (join (wide a) (wide b) (wide c) (wide d)) 8 = wide c := by
  rw [byteOf_eq _ (by decide), (bytes_of_join32 a b c d (join_wide a b c d)).2.2.1]

@[simp] theorem byteOf_join_0 : byteOf (join (wide a) (wide b) (wide c) (wide d)) 0 = wide d := by
  rw [byteOf_eq _ (by decide), BitVec.ushiftRight_zero,
    (bytes_of_join32 a b c d (join_wide a b c d)).2.2.2]

end Join

/-- A column is joined from its bytes. -/
theorem exists_join (col : ILInt32) :
    ∃ a b c d : ILUInt8, col = join (wide a) (wide b) (wide c) (wide d) := by
  refine ⟨(col >>> 24).setWidth 8, (col >>> 16).setWidth 8, (col >>> 8).setWidth 8,
    col.setWidth 8, ?_⟩
  rw [join_wide, join_bytes32]

/-! ### MixColumns -/

/-- Multiplication by two, on bytes. -/
def double (x : ILUInt8) : ILUInt8 := x <<< 1 ^^^ if x.msb then 0x1B else 0

theorem double_xor (x y : ILUInt8) : double (x ^^^ y) = double x ^^^ double y := by
  have hcarry : ∀ p q : Bool, (if (p ^^ q) = true then (0x1B : ILUInt8) else 0) =
    (if p then 0x1B else 0) ^^^ (if q then 0x1B else 0) := by decide
  rw [double, double, double, BitVec.shiftLeft_xor_distrib, BitVec.msb_xor, hcarry]
  ac_rfl

theorem shiftReduce_wide : ∀ x : ILUInt8, shiftReduce (wide x) = wide (double x) := by
  apply forall_byte
  decide +kernel

def triple (x : ILUInt8) : ILUInt8 := x ^^^ double x

def nine (x : ILUInt8) : ILUInt8 := x ^^^ double (double (double x))

def eleven (x : ILUInt8) : ILUInt8 := x ^^^ double x ^^^ double (double (double x))

def thirteen (x : ILUInt8) : ILUInt8 := x ^^^ double (double x) ^^^ double (double (double x))

def fourteen (x : ILUInt8) : ILUInt8 :=
  double x ^^^ double (double x) ^^^ double (double (double x))

theorem mult_wide (x : ILUInt8) :
    mult 2 (wide x) = wide (double x) ∧ mult 3 (wide x) = wide (triple x) ∧
      mult 9 (wide x) = wide (nine x) ∧ mult 11 (wide x) = wide (eleven x) ∧
      mult 13 (wide x) = wide (thirteen x) ∧ mult 14 (wide x) = wide (fourteen x) := by
  simp only [triple, nine, eleven, thirteen, fourteen, ← wide_xor, ← shiftReduce_wide]
  refine ⟨?_, ?_, ?_, ?_, ?_, ?_⟩
  all_goals simp [mult, multLoop]

section Factors

variable (x y : ILUInt8)

theorem nine_xor : nine (x ^^^ y) = nine x ^^^ nine y := by
  simp only [nine, double_xor]
  ac_rfl

theorem eleven_xor : eleven (x ^^^ y) = eleven x ^^^ eleven y := by
  simp only [eleven, double_xor]
  ac_rfl

theorem thirteen_xor : thirteen (x ^^^ y) = thirteen x ^^^ thirteen y := by
  simp only [thirteen, double_xor]
  ac_rfl

theorem fourteen_xor : fourteen (x ^^^ y) = fourteen x ^^^ fourteen y := by
  simp only [fourteen, double_xor]
  ac_rfl

end Factors

/-- A byte of a column that is mixed. -/
def mixByte (a b c d : ILUInt8) : ILUInt8 := double a ^^^ triple b ^^^ c ^^^ d

def unmixByte (a b c d : ILUInt8) : ILUInt8 :=
  fourteen a ^^^ eleven b ^^^ thirteen c ^^^ nine d

/-- The products of the two matrices. -/
theorem products : ∀ x : ILUInt8,
    fourteen (double x) ^^^ eleven x ^^^ thirteen x ^^^ nine (triple x) = x ∧
    fourteen (triple x) ^^^ eleven (double x) ^^^ thirteen x ^^^ nine x = 0 ∧
    fourteen x ^^^ eleven (triple x) ^^^ thirteen (double x) ^^^ nine x = 0 ∧
    fourteen x ^^^ eleven x ^^^ thirteen (triple x) ^^^ nine (double x) = 0 := by
  apply forall_byte
  decide +kernel

theorem unmixByte_mixByte (a b c d : ILUInt8) :
    unmixByte (mixByte a b c d) (mixByte b c d a) (mixByte c d a b) (mixByte d a b c) = a := by
  have ha := (products a).1
  have hb := (products b).2.1
  have hc := (products c).2.2.1
  have hd := (products d).2.2.2
  simp only [unmixByte, mixByte, fourteen_xor, eleven_xor, thirteen_xor, nine_xor]
  calc _ = (fourteen (double a) ^^^ eleven a ^^^ thirteen a ^^^ nine (triple a)) ^^^
        (fourteen (triple b) ^^^ eleven (double b) ^^^ thirteen b ^^^ nine b) ^^^
        (fourteen c ^^^ eleven (triple c) ^^^ thirteen (double c) ^^^ nine c) ^^^
        (fourteen d ^^^ eleven d ^^^ thirteen (triple d) ^^^ nine (double d)) := by ac_rfl
    _ = a := by
      rw [ha, hb, hc, hd]
      simp

theorem mix_join (a b c d : ILUInt8) :
    mix (join (wide a) (wide b) (wide c) (wide d)) =
      join (wide (mixByte a b c d)) (wide (mixByte b c d a)) (wide (mixByte c d a b))
        (wide (mixByte d a b c)) := by
  simp only [mix, byteOf_join_24, byteOf_join_16, byteOf_join_8, byteOf_join_0, mult_wide,
    wide_xor, mixByte]
  congr 2 <;> ac_rfl

theorem unmix_join (a b c d : ILUInt8) :
    unmix (join (wide a) (wide b) (wide c) (wide d)) =
      join (wide (unmixByte a b c d)) (wide (unmixByte b c d a)) (wide (unmixByte c d a b))
        (wide (unmixByte d a b c)) := by
  simp only [unmix, byteOf_join_24, byteOf_join_16, byteOf_join_8, byteOf_join_0, mult_wide,
    wide_xor, unmixByte]
  congr 2 <;> ac_rfl

theorem unmix_mix (col : ILInt32) : unmix (mix col) = col := by
  obtain ⟨a, b, c, d, rfl⟩ := exists_join col
  rw [mix_join, unmix_join, unmixByte_mixByte, unmixByte_mixByte, unmixByte_mixByte,
    unmixByte_mixByte]

/-! ### SubBytes and ShiftRows -/

theorem invsbox_sbox : ∀ x : ILUInt8, invsbox.getD (sbox.getD x.toNat 0).toNat 0 = x := by
  apply forall_byte
  decide +kernel

section Lookup

variable (s : List ILUInt8) (a b c d : ILUInt8)

theorem toNat_wide : (wide a).toNat = a.toNat := BitVec.toNat_setWidth_of_le (by decide)

theorem lookup_join : ∀ col, col = join (wide a) (wide b) (wide c) (wide d) →
    lookup s col 24 = wide (s.getD a.toNat 0) ∧ lookup s col 16 = wide (s.getD b.toNat 0) ∧
      lookup s col 8 = wide (s.getD c.toNat 0) ∧ lookup s col 0 = wide (s.getD d.toNat 0) := by
  rintro col rfl
  simp only [lookup, byteOf_join_24, byteOf_join_16, byteOf_join_8, byteOf_join_0, toNat_wide,
    and_self]

end Lookup

theorem unsubstitute_substitute (state : Columns) :
    (state.substitute sbox).unsubstitute invsbox = state := by
  obtain ⟨col0, col1, col2, col3⟩ := state
  obtain ⟨a0, b0, c0, d0, rfl⟩ := exists_join col0
  obtain ⟨a1, b1, c1, d1, rfl⟩ := exists_join col1
  obtain ⟨a2, b2, c2, d2, rfl⟩ := exists_join col2
  obtain ⟨a3, b3, c3, d3, rfl⟩ := exists_join col3
  simp only [Columns.substitute, Columns.unsubstitute, lookup_join _ _ _ _ _ _ rfl, invsbox_sbox]

/-! ### Rounds -/

theorem addKey_addKey (state : Columns) (ks : List ILInt32) (keyIndex : Nat) :
    (state.addKey ks keyIndex).addKey ks keyIndex = state := by
  simp only [Columns.addKey, BitVec.xor_assoc, BitVec.xor_self, BitVec.xor_zero]

theorem unmix_map_mix (state : Columns) : (state.map mix).map unmix = state := by
  simp only [Columns.map, unmix_mix]

/-- The last of the rounds. -/
theorem encryptRounds_succ (ks : List ILInt32) (round keyIndex : Nat) (state : Columns) :
    encryptRounds ks (round + 1) keyIndex state =
      (((((encryptRounds ks round keyIndex state).1.substitute sbox).map mix).addKey ks
        (keyIndex + 4 * round)), keyIndex + 4 * (round + 1)) := by
  induction round generalizing keyIndex state with
  | zero => rfl
  | succ round ih =>
    have hkey : keyIndex + 4 + 4 * round = keyIndex + 4 * (round + 1) := by omega
    have hnext : keyIndex + 4 + 4 * (round + 1) = keyIndex + 4 * (round + 1 + 1) := by omega
    rw [encryptRounds, ih, encryptRounds, hkey, hnext]

theorem encryptRounds_snd (ks : List ILInt32) (round keyIndex : Nat) (state : Columns) :
    (encryptRounds ks round keyIndex state).2 = keyIndex + 4 * round := by
  cases round with
  | zero => rfl
  | succ round => rw [encryptRounds_succ]

/-- The rounds are taken back from the last one on. -/
theorem decryptRounds_encryptRounds (ks : List ILInt32) (round keyIndex : Nat) (state : Columns) :
    decryptRounds ks round (keyIndex + 4 * round)
        ((encryptRounds ks round keyIndex state).1.substitute sbox) =
      (state.substitute sbox, keyIndex) := by
  induction round with
  | zero => rfl
  | succ round ih =>
    have hkey : keyIndex + 4 * (round + 1) - 4 = keyIndex + 4 * round := by omega
    rw [decryptRounds, hkey, encryptRounds_succ, unsubstitute_substitute, addKey_addKey,
      unmix_map_mix, ih]

/-! ### Blocks -/

theorem unpack_pack (state : Columns) : unpack (pack state) = state :=
  congr (congr (congr (congrArg Columns.mk (join_bytes32 state.col0)) (join_bytes32 state.col1))
    (join_bytes32 state.col2)) (join_bytes32 state.col3)

theorem pack_unpack {block : List ILUInt8} (hblock : block.length = 16) :
    pack (unpack block) = block := by
  match block, hblock with
  | [a0, b0, c0, d0, a1, b1, c1, d1, a2, b2, c2, d2, a3, b3, c3, d3], _ =>
    change bwriteInt32 _ ++ bwriteInt32 _ ++ bwriteInt32 _ ++ bwriteInt32 _ = _
    exact congrArg₂ (· ++ ·) (congrArg₂ (· ++ ·) (congrArg₂ (· ++ ·)
      (bwriteInt32_read a0 b0 c0 d0) (bwriteInt32_read a1 b1 c1 d1))
      (bwriteInt32_read a2 b2 c2 d2)) (bwriteInt32_read a3 b3 c3 d3)

theorem numRounds_pos (key : List ILUInt8) (keyBits : Nat) :
    0 < (ilAESInit key keyBits).numRounds := by
  change 0 < if keyBits = 128 then 10 else if keyBits = 192 then 12 else 14
  split_ifs <;> decide

theorem decrypt_encrypt (aes : ILAESContext) (haes : 0 < aes.numRounds) {block : List ILUInt8}
    (hblock : block.length = 16) : ilAESDecrypt aes (ilAESEncrypt aes block) = block := by
  have hlast : aes.numRounds * 4 = 4 + 4 * (aes.numRounds - 1) := by omega
  have hrounds := decryptRounds_encryptRounds aes.keySchedule (aes.numRounds - 1) 4
    ((unpack block).addKey aes.keySchedule 0)
  unfold ilAESDecrypt ilAESEncrypt
  simp only [unpack_pack, encryptRounds_snd, hlast, addKey_addKey, hrounds,
    unsubstitute_substitute, Nat.sub_self, pack_unpack hblock]

end AES

end Pnet.Support
