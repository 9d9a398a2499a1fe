import Mathlib.Tactic.IntervalCases
import Pnet.Lib.BitWires
import Pnet.Support.Des

/-! The Data Encryption Standard as FIPS 46-3 defines it, bit by bit, and the generator of the
tables of `des.c`. -/
namespace Pnet.Support.DES
open Lib.BitWires Lib.Undo

/-! ### The generator of the tables -/

def SBox1 : List Nat :=
  [14, 4, 13, 1, 2, 15, 11, 8, 3, 10, 6, 12, 5, 9, 0, 7,
   0, 15, 7, 4, 14, 2, 13, 1, 10, 6, 12, 11, 9, 5, 3, 8,
   4, 1, 14, 8, 13, 6, 2, 11, 15, 12, 9, 7, 3, 10, 5, 0,
   15, 12, 8, 2, 4, 9, 1, 7, 5, 11, 3, 14, 10, 0, 6, 13]

def SBox2 : List Nat :=
  [15, 1, 8, 14, 6, 11, 3, 4, 9, 7, 2, 13, 12, 0, 5, 10,
   3, 13, 4, 7, 15, 2, 8, 14, 12, 0, 1, 10, 6, 9, 11, 5,
   0, 14, 7, 11, 10, 4, 13, 1, 5, 8, 12, 6, 9, 3, 2, 15,
   13, 8, 10, 1, 3, 15, 4, 2, 11, 6, 7, 12, 0, 5, 14, 9]

def SBox3 : List Nat :=
  [10, 0, 9, 14, 6, 3, 15, 5, 1, 13, 12, 7, 11, 4, 2, 8,
   13, 7, 0, 9, 3, 4, 6, 10, 2, 8, 5, 14, 12, 11, 15, 1,
   13, 6, 4, 9, 8, 15, 3, 0, 11, 1, 2, 12, 5, 10, 14, 7,
   1, 10, 13, 0, 6, 9, 8, 7, 4, 15, 14, 3, 11, 5, 2, 12]

def SBox4 : List Nat :=
  [7, 13, 14, 3, 0, 6, 9, 10, 1, 2, 8, 5, 11, 12, 4, 15,
   13, 8, 11, 5, 6, 15, 0, 3, 4, 7, 2, 12, 1, 10, 14, 9,
   10, 6, 9, 0, 12, 11, 7, 13, 15, 1, 3, 14, 5, 2, 8, 4,
   3, 15, 0, 6, 10, 1, 13, 8, 9, 4, 5, 11, 12, 7, 2, 14]

def SBox5 : List Nat :=
  [2, 12, 4, 1, 7, 10, 11, 6, 8, 5, 3, 15, 13, 0, 14, 9,
   14, 11, 2, 12, 4, 7, 13, 1, 5, 0, 15, 10, 3, 9, 8, 6,
   4, 2, 1, 11, 10, 13, 7, 8, 15, 9, 12, 5, 6, 3, 0, 14,
   11, 8, 12, 7, 1, 14, 2, 13, 6, 15, 0, 9, 10, 4, 5, 3]

def SBox6 : List Nat :=
  [12, 1, 10, 15, 9, 2, 6, 8, 0, 13, 3, 4, 14, 7, 5, 11,
   10, 15, 4, 2, 7, 12, 9, 5, 6, 1, 13, 14, 0, 11, 3, 8,
   9, 14, 15, 5, 2, 8, 12, 3, 7, 0, 4, 10, 1, 13, 11, 6,
   4, 3, 2, 12, 9, 5, 15, 10, 11, 14, 1, 7, 6, 0, 8, 13]

def SBox7 : List Nat :=
  [4, 11, 2, 14, 15, 0, 8, 13, 3, 12, 9, 7, 5, 10, 6, 1,
   13, 0, 11, 7, 4, 9, 1, 10, 14, 3, 5, 12, 2, 15, 8, 6,
   1, 4, 11, 13, 12, 3, 7, 14, 10, 15, 6, 8, 0, 5, 9, 2,
   6, 11, 13, 8, 1, 4, 10, 7, 9, 5, 0, 15, 14, 2, 3, 12]

def SBox8 : List Nat :=
  [13, 2, 8, 4, 6, 15, 11, 1, 10, 9, 3, 14, 5, 0, 12, 7,
   1, 15, 13, 8, 10, 3, 7, 4, 12, 5, 6, 11, 0, 14, 9, 2,
   7, 11, 4, 1, 9, 12, 14, 2, 0, 6, 10, 13, 15, 3, 5, 8,
   2, 1, 14, 7, 4, 10, 8, 13, 15, 12, 9, 0, 3, 5, 6, 11]

def P : List Nat :=
  [16, 7, 20, 21, 29, 12, 28, 17, 1, 15, 23, 26, 5, 18, 31, 10,
   2, 8, 24, 14, 32, 27, 3, 9, 19, 13, 30, 6, 22, 11, 4, 25]

/-- `P`, and a rotation by one bit. -/
def permute (value : ILUInt32) : ILUInt32 :=
  let result : ILUInt32 := P.zipIdx.foldl (fun result (entry, posn) =>
    if value &&& (1 : ILUInt32) <<< (32 - entry) ≠ 0 then result ||| (1 : ILUInt32) <<< (31 - posn)
    else result) 0
  result <<< 1 ||| result >>> 31

def applySBox (sbox : List Nat) (boxNum : Nat) (value : ILUInt32) : ILUInt32 :=
  let index : ILUInt32 := if value &&& 0x20 ≠ 0 then 2 else 0
  let index := if value &&& 0x01 ≠ 0 then index ||| 1 else index
  let index := index <<< 4 ||| (value >>> 1 &&& 0x0F)
  BitVec.ofNat 32 (sbox.getD index.toNat 0) <<< (28 - boxNum * 4)

def genSPBox (sbox : List Nat) (boxNum : Nat) : List ILUInt32 :=
  (List.range 64).map fun index => permute (applySBox sbox boxNum (BitVec.ofNat 32 index))

/-! ### The standard -/

namespace Standard

def IP : List Nat :=
  [58, 50, 42, 34, 26, 18, 10, 2,
   60, 52, 44, 36, 28, 20, 12, 4,
   62, 54, 46, 38, 30, 22, 14, 6,
   64, 56, 48, 40, 32, 24, 16, 8,
   57, 49, 41, 33, 25, 17, 9, 1,
   59, 51, 43, 35, 27, 19, 11, 3,
   61, 53, 45, 37, 29, 21, 13, 5,
   63, 55, 47, 39, 31, 23, 15, 7]

def E : List Nat :=
  [32, 1, 2, 3, 4, 5,
   4, 5, 6, 7, 8, 9,
   8, 9, 10, 11, 12, 13,
   12, 13, 14, 15, 16, 17,
   16, 17, 18, 19, 20, 21,
   20, 21, 22, 23, 24, 25,
   24, 25, 26, 27, 28, 29,
   28, 29, 30, 31, 32, 1]

/-- The inverse of `IP`. -/
def FP : List Nat :=
  [40, 8, 48, 16, 56, 24, 64, 32,
   39, 7, 47, 15, 55, 23, 63, 31,
   38, 6, 46, 14, 54, 22, 62, 30,
   37, 5, 45, 13, 53, 21, 61, 29,
   36, 4, 44, 12, 52, 20, 60, 28,
   35, 3, 43, 11, 51, 19, 59, 27,
   34, 2, 42, 10, 50, 18, 58, 26,
   33, 1, 41, 9, 49, 17, 57, 25]

/-- A row is named by the outer two bits and a column by the inner four. -/
def substitute (sbox : List Nat) (six : BitVec 6) : BitVec 4 :=
  let row := 2 * (six.getMsbD 0).toNat + (six.getMsbD 5).toNat
  let column := (six.extractLsb' 1 4).toNat
  BitVec.ofNat 4 (sbox.getD (16 * row + column) 0)

/-- The six bits of `x` for the S-box `j + 1`. -/
def sixBits (x : BitVec 48) (j : Nat) : BitVec 6 := x.extractLsb' (42 - 6 * j) 6

def sBoxes (x : BitVec 48) : BitVec 32 :=
  substitute SBox1 (sixBits x 0) ++ substitute SBox2 (sixBits x 1) ++
    substitute SBox3 (sixBits x 2) ++ substitute SBox4 (sixBits x 3) ++
    substitute SBox5 (sixBits x 4) ++ substitute SBox6 (sixBits x 5) ++
    substitute SBox7 (sixBits x 6) ++ substitute SBox8 (sixBits x 7)

/-- The function `f` of the standard. -/
def cipher (K : BitVec 48) (R : BitVec 32) : BitVec 32 :=
  select P (sBoxes (select E R ^^^ K))

/-- A block `C` or `D` after the left shifts of the rounds up to `round`. -/
def shifted (block : BitVec 28) (round : Nat) : BitVec 28 :=
  (LRotate.take (round + 1)).foldl BitVec.rotateLeft block

/-- The key of a round. -/
def roundKey (key : BitVec 64) (round : Nat) : BitVec 48 :=
  let C : BitVec 28 := select (PC1.take 28) key
  let D : BitVec 28 := select (PC1.drop 28) key
  select PC2 (shifted C round ++ shifted D round)

def encipher (key block : BitVec 64) : BitVec 64 :=
  let permuted : BitVec 64 := select IP block
  let halves := network cipher ((List.range 16).map (roundKey key))
    (permuted.extractLsb' 32 32, permuted.extractLsb' 0 32)
  select FP (halves.2 ++ halves.1)

end Standard

/-- The bytes of a block, as the callers hold them. -/
def octets (block : BitVec 64) : List ILUInt8 :=
  (List.range 8).map fun i => block.extractLsb' (56 - 8 * i) 8

end Pnet.Support.DES

/-! ### The code is the standard

With its swap steps, combined tables and packed keys, `des.c` enciphers as the standard says. -/
namespace Pnet.Support.DES
open Lib.BitWires Lib.Undo Standard

/-! ### The steps as wirings -/

theorem wired_rotateLeft {n : Nat} (hn : n ≤ 32) :
    Wired (fun x : ILUInt32 => rotateLeft x n) fun i =>
      if (if i < n then 32 else i - n) < 32 then (if i < n then 32 else i - n) else 32 - n + i := by
  apply Wired.or (Wired.shiftLeft n) (Wired.ushiftRight (32 - n))
  intro i hi
  split <;> omega

section ipstep

variable {n : Nat} {l r : BitVec n → ILUInt32} {σ τ : Nat → Nat}

theorem wired_ipstep_fst (hl : Wired l σ) (hr : Wired r τ) (shift : Nat) (mask : ILUInt32) :
    Wired (fun x => (ipstep shift mask (l x) (r x)).1) fun i =>
      if shift ≤ i ∧ mask.getLsbD (i - shift) then τ (i - shift) else σ i := by
  intro x i hi
  have hin : i - shift < 32 := by omega
  simp only [ipstep, BitVec.getLsbD_xor, BitVec.getLsbD_shiftLeft, BitVec.getLsbD_and,
    BitVec.getLsbD_ushiftRight, hl x i hi, hr x (i - shift) hin, decide_eq_true hi, Bool.true_and]
  by_cases hshift : shift ≤ i
  · have hback : shift + (i - shift) = i := by omega
    rw [hback, hl x i hi, decide_eq_false (Nat.not_lt.mpr hshift)]
    cases mask.getLsbD (i - shift) <;> simp [hshift]
  · simp [hshift, Nat.not_le.mp hshift]

theorem wired_ipstep_snd (hl : Wired l σ) (hr : Wired r τ) (shift : Nat) (mask : ILUInt32) :
    Wired (fun x => (ipstep shift mask (l x) (r x)).2) fun i =>
      if mask.getLsbD i then (if shift + i < 32 then σ (shift + i) else n) else τ i := by
  intro x i hi
  simp only [ipstep, BitVec.getLsbD_xor, BitVec.getLsbD_and, BitVec.getLsbD_ushiftRight,
    hr x i hi]
  by_cases hshift : shift + i < 32
  · rw [hl x _ hshift, if_pos hshift]
    cases mask.getLsbD i with
    | false => simp
    | true => cases x.getLsbD (τ i) <;> simp
  · rw [BitVec.getLsbD_of_ge _ _ (Nat.not_lt.mp hshift), if_neg hshift]
    cases mask.getLsbD i <;> simp

end ipstep

theorem exchange_eq (L R : ILUInt32) : exchange L R = ipstep 0 0xAAAAAAAA L R := by
  simp only [exchange, ipstep, BitVec.ushiftRight_zero, BitVec.shiftLeft_zero]

/-! ### The permutations of the block -/

/-- The left half of a block. -/
def high (block : BitVec 64) : ILUInt32 := block.extractLsb' 32 32

/-- The right half of a block. -/
def low (block : BitVec 64) : ILUInt32 := block.extractLsb' 0 32

theorem append_high_low (block : BitVec 64) : high block ++ low block = block := by
  have happend := (Wired.extract (n := 64) (m := 32) 32).append (Wired.extract (m := 32) 0)
  exact Wired.eq happend Wired.id (by decide) block

theorem high_append (L R : ILUInt32) : high (L ++ R) = L := by
  apply BitVec.eq_of_getLsbD_eq
  intro i hi
  have hge : ¬32 + i < 32 := by omega
  rw [high, BitVec.getLsbD_extractLsb', BitVec.getLsbD_append, decide_eq_true hi, if_neg hge,
    Bool.true_and, Nat.add_sub_cancel_left]

theorem low_append (L R : ILUInt32) : low (L ++ R) = R := by
  apply BitVec.eq_of_getLsbD_eq
  intro i hi
  rw [low, BitVec.getLsbD_extractLsb', BitVec.getLsbD_append, decide_eq_true hi, Nat.zero_add,
    if_pos hi, Bool.true_and]

theorem inputPermutation_eq (block : BitVec 64) :
    inputPermutation (high block) (low block) =
      (rotateLeft (high (select IP block)) 1, rotateLeft (low (select IP block)) 1) := by
  have hL : Wired high _ := Wired.extract 32
  have hR : Wired low _ := Wired.extract 0
  have hL1 := wired_ipstep_fst hL hR 4 0x0F0F0F0F
  have hR1 := wired_ipstep_snd hL hR 4 0x0F0F0F0F
  have hL2 := wired_ipstep_fst hL1 hR1 16 0x0000FFFF
  have hR2 := wired_ipstep_snd hL1 hR1 16 0x0000FFFF
  have hR3 := wired_ipstep_fst hR2 hL2 2 0x33333333
  have hL3 := wired_ipstep_snd hR2 hL2 2 0x33333333
  have hR4 := wired_ipstep_fst hR3 hL3 8 0x00FF00FF
  have hL4 := wired_ipstep_snd hR3 hL3 8 0x00FF00FF
  have hrotate := wired_rotateLeft (n := 1) (by decide)
  have hL5 := wired_ipstep_fst hL4 (hrotate.comp hR4) 0 0xAAAAAAAA
  have hR5 := wired_ipstep_snd hL4 (hrotate.comp hR4) 0 0xAAAAAAAA
  have hselect := Wired.select (n := 64) (m := 64) IP
  have hfst := Wired.eq (hrotate.comp hL5) (hrotate.comp (hL.comp hselect)) (by decide)
    block
  have hsnd := Wired.eq hR5 (hrotate.comp (hR.comp hselect)) (by decide) block
  simp only [inputPermutation, exchange_eq]
  exact Prod.ext hfst hsnd

theorem select_FP_IP (block : BitVec 64) :
    (select FP (select IP block : BitVec 64) : BitVec 64) = block :=
  Wired.eq ((Wired.select FP).comp (Wired.select IP)) Wired.id (by decide) block

/-- The bytes of a block are those of its halves. -/
theorem octets_eq (block : BitVec 64) :
    octets block = bwriteInt32 (high block) ++ bwriteInt32 (low block) := by
  have hbyte (start shift : Nat) (half : BitVec 64 → ILUInt32) (hhalf : Wired half (start + ·))
      (hshift : shift ≤ 24) :
      block.extractLsb' (start + shift) 8 = (half block >>> shift).setWidth 8 := by
    have hright := Wired.setWidth (m := 8).comp ((Wired.ushiftRight shift).comp hhalf)
    apply Wired.eq (Wired.extract (start + shift)) hright
    intro i hi
    rw [if_pos (by omega), if_pos (by omega), Nat.add_assoc]
  have hhigh := fun shift => hbyte 32 shift high (Wired.extract 32)
  have hlow := fun shift => hbyte 0 shift low (Wired.extract 0)
  show [block.extractLsb' (32 + 24) 8, block.extractLsb' (32 + 16) 8,
    block.extractLsb' (32 + 8) 8, block.extractLsb' (32 + 0) 8, block.extractLsb' (0 + 24) 8,
    block.extractLsb' (0 + 16) 8, block.extractLsb' (0 + 8) 8, block.extractLsb' (0 + 0) 8] = _
  rw [hhigh 24 (by decide), hhigh 16 (by decide), hhigh 8 (by decide), hhigh 0 (by decide),
    hlow 24 (by decide), hlow 16 (by decide), hlow 8 (by decide), hlow 0 (by decide)]
  rfl

/-! ### The key schedule -/

theorem octets_bit (key : BitVec 64) {select : Nat} (hselect : select < 64) :
    (octets key).getD (select / 8) 0 &&& (0x80 >>> (select % 8)) ≠ 0 ↔ key.getMsbD select := by
  have hbyte : (octets key).getD (select / 8) 0 = key.extractLsb' (56 - 8 * (select / 8)) 8 := by
    have hin : select / 8 < 8 := by omega
    simp [octets, hin]
  have hmask : ∀ t < 8, (0x80 >>> t : BitVec 8) = BitVec.twoPow 8 (7 - t) := by decide
  have hposn : 56 - 8 * (select / 8) + (7 - select % 8) = 63 - select := by omega
  have hbit : (key.extractLsb' (56 - 8 * (select / 8)) 8).getLsbD (7 - select % 8) =
      key.getMsbD select := by
    have hin : 7 - select % 8 < 8 := by omega
    rw [BitVec.getLsbD_extractLsb', decide_eq_true hin, hposn, BitVec.getMsbD_eq_getLsbD,
      decide_eq_true hselect]
  have hpow : BitVec.twoPow 8 (7 - select % 8) ≠ 0 := by
    have hall : ∀ t < 8, BitVec.twoPow 8 (7 - t) ≠ 0 := by decide
    exact hall _ (Nat.mod_lt _ (by decide))
  rw [hbyte, hmask _ (Nat.mod_lt _ (by decide)), BitVec.and_twoPow, hbit]
  cases key.getMsbD select with
  | false => simp
  | true => simpa using hpow

/-- The table's entries name bits of the word. -/
def Names (table : List Nat) (n : Nat) : Prop := ∀ entry ∈ table, 1 ≤ entry ∧ entry ≤ n

instance (table : List Nat) (n : Nat) : Decidable (Names table n) := by
  unfold Names; infer_instance

theorem bitToKS_eq (index : Nat) : bitToKS index = BitVec.twoPow 32 (27 - index) := by
  apply BitVec.eq_of_toNat_eq
  show (BitVec.ofNat 32 (1 <<< (27 - index))).toNat = _
  rw [BitVec.toNat_ofNat, Nat.one_shiftLeft, BitVec.toNat_twoPow]

theorem halfKey_octets (key : BitVec 64) (half : List Nat) (hlength : half.length = 28)
    (hnames : Names half 64) :
    halfKey (octets key) half = (select half key : BitVec 28).setWidth 32 := by
  simp only [halfKey, bitToKS_eq]
  refine gather_eq_select 27 (by decide)
    (fun entry => (octets key).getD ((entry - 1) / 8) 0 &&& (0x80 >>> ((entry - 1) % 8)) ≠ 0)
    key half hlength ?_
  intro entry hentry
  have hin : entry - 1 < 64 := by
    have := hnames entry hentry
    omega
  exact octets_bit key hin

theorem and_bitToKS (x : BitVec 28) (select : Nat) (hselect : select < 28) :
    x.setWidth 32 &&& bitToKS select ≠ 0 ↔ x.getMsbD select = true := by
  have hbit : (x.setWidth 32).getLsbD (27 - select) = x.getMsbD select := by
    have hin : 27 - select < 32 := by omega
    rw [BitVec.getLsbD_setWidth, decide_eq_true hin, Bool.true_and, BitVec.getMsbD_eq_getLsbD,
      decide_eq_true hselect, Bool.true_and]
  have hpow : BitVec.twoPow 32 (27 - select) ≠ 0 := by
    have hall : ∀ t < 28, BitVec.twoPow 32 t ≠ 0 := by decide
    exact hall _ (by omega)
  rw [bitToKS_eq, BitVec.and_twoPow, hbit]
  cases x.getMsbD select with
  | false => simp
  | true => simpa using hpow

theorem halfSchedule_eq (C D : BitVec 28) {half : List Nat} (hlength : half.length = 24)
    (hnames : Names half 56) :
    halfSchedule (C.setWidth 32) (D.setWidth 32) half =
      (select half (C ++ D) : BitVec 24).setWidth 32 := by
  have hposn (bit : Nat) : 27 - (bit + 4) = 23 - bit := by omega
  simp only [halfSchedule, bitToKS_eq, hposn]
  refine gather_eq_select 23 (by decide) (fun entry =>
    if entry - 1 < 28 then C.setWidth 32 &&& BitVec.twoPow 32 (27 - (entry - 1)) ≠ 0
    else D.setWidth 32 &&& BitVec.twoPow 32 (27 - (entry - 1 - 28)) ≠ 0) (C ++ D) half
    hlength ?_
  intro entry hentry
  have hin : entry - 1 < 56 := by
    have := hnames entry hentry
    omega
  rw [BitVec.getMsbD_append]
  by_cases hC : entry - 1 < 28
  · have hbit := and_bitToKS C (entry - 1) hC
    rw [bitToKS_eq] at hbit
    simpa only [if_pos hC, if_neg (Nat.not_le.mpr hC)] using hbit
  · have hbit := and_bitToKS D (entry - 1 - 28) (by omega)
    rw [bitToKS_eq] at hbit
    simpa only [if_neg hC, if_pos (Nat.not_lt.mp hC)] using hbit

theorem rotate28_setWidth (x : BitVec 28) {n : Nat} (hn : n < 28) :
    rotate28 (x.setWidth 32) n = (x.rotateLeft n).setWidth 32 := by
  apply BitVec.eq_of_getLsbD_eq
  intro i hi
  simp only [rotate28, BitVec.getLsbD_and, BitVec.getLsbD_or, BitVec.getLsbD_setWidth,
    BitVec.getLsbD_shiftLeft, BitVec.getLsbD_ushiftRight, BitVec.getLsbD_rotateLeft,
    Nat.mod_eq_of_lt hn]
  have hmask : (0x0FFFFFFF : ILUInt32).getLsbD i = decide (i < 28) := by
    have hall : ∀ i < 32, (0x0FFFFFFF : ILUInt32).getLsbD i = decide (i < 28) := by decide
    exact hall i hi
  rw [hmask, decide_eq_true hi, Bool.true_and, Bool.true_and]
  by_cases hlow : i < n
  · have hin : 28 - n + i < 32 := by omega
    have hin' : i < 28 := by omega
    simp [hlow, hin, hin']
  · by_cases hin : i < 28
    · have hback : i - n < 32 := by omega
      have hout : x.getLsbD (28 - n + i) = false := BitVec.getLsbD_of_ge _ _ (by omega)
      simp [hlow, hin, hback, hout]
    · simp [hlow, hin]

theorem foldl_rotate28 (x : BitVec 28) {shifts : List Nat} (hshifts : ∀ n ∈ shifts, n < 28) :
    shifts.foldl rotate28 (x.setWidth 32) = (shifts.foldl BitVec.rotateLeft x).setWidth 32 := by
  induction shifts generalizing x with
  | nil => rfl
  | cons n shifts ih =>
    have hn := hshifts n List.mem_cons_self
    rw [List.foldl_cons, List.foldl_cons, rotate28_setWidth x hn,
      ih (x.rotateLeft n) fun m hm => hshifts m (List.mem_cons_of_mem n hm)]

theorem rotated_setWidth (x : BitVec 28) (round : Nat) :
    rotated (x.setWidth 32) round = (shifted x round).setWidth 32 := by
  have hall : ∀ n ∈ LRotate, n < 28 := by decide
  exact foldl_rotate28 x fun n hn => hall n (List.mem_of_mem_take hn)

/-- A key of the standard as the rounds read it. -/
def packed (K : BitVec 48) : ILUInt32 × ILUInt32 :=
  let schedA : ILUInt32 := (K.extractLsb' 24 24).setWidth 32
  let schedB : ILUInt32 := (K.extractLsb' 0 24).setWidth 32
  ((schedA &&& 0x00FC0000) <<< 6 ||| (schedA &&& 0x00000FC0) <<< 10 |||
      (schedB &&& 0x00FC0000) >>> 10 ||| (schedB &&& 0x00000FC0) >>> 6,
    (schedA &&& 0x0003F000) <<< 12 ||| (schedA &&& 0x0000003F) <<< 16 |||
      (schedB &&& 0x0003F000) >>> 4 ||| (schedB &&& 0x0000003F))

theorem roundKey_setWidth (C D : BitVec 28) :
    DES.roundKey (C.setWidth 32) (D.setWidth 32) = packed (select PC2 (C ++ D)) := by
  have hselect := Wired.select (n := 56) (m := 48) PC2
  have htake := Wired.eq (Wired.select (m := 24) (PC2.take 24))
    ((Wired.extract (n := 48) (m := 24) 24).comp hselect) (by decide) (C ++ D)
  have hdrop := Wired.eq (Wired.select (m := 24) (PC2.drop 24))
    ((Wired.extract (n := 48) (m := 24) 0).comp hselect) (by decide) (C ++ D)
  rw [DES.roundKey, halfSchedule_eq C D (by decide) (by decide),
    halfSchedule_eq C D (by decide) (by decide), htake, hdrop, packed]

theorem roundKeys_createDESSchedule (key : BitVec 64) :
    roundKeys (createDESSchedule (octets key) false).ks =
      ((List.range 16).map (Standard.roundKey key)).map packed := by
  have hC := halfKey_octets key (PC1.take 28) (by decide) (by decide)
  have hD := halfKey_octets key (PC1.drop 28) (by decide) (by decide)
  rw [List.map_map]
  simp only [createDESSchedule, hC, hD, rotated_setWidth, roundKey_setWidth]
  exact (roundKeys_placeKeys _).1

/-! ### The combined tables -/

/-- The tables are what the generator prints. -/
theorem genSPBox_eq :
    genSPBox SBox1 0 = SPBox1 ∧ genSPBox SBox2 1 = SPBox2 ∧ genSPBox SBox3 2 = SPBox3 ∧
      genSPBox SBox4 3 = SPBox4 ∧ genSPBox SBox5 4 = SPBox5 ∧ genSPBox SBox6 5 = SPBox6 ∧
      genSPBox SBox7 6 = SPBox7 ∧ genSPBox SBox8 7 = SPBox8 := by
  decide

theorem permute_eq (value : ILUInt32) : permute value = rotateLeft (select P value) 1 := by
  have hgather := gather_eq_select (w := 32) 31 (by decide)
    (fun entry => value &&& (1 : ILUInt32) <<< (32 - entry) ≠ 0) value P (by decide) ?_
  · rw [BitVec.setWidth_eq] at hgather
    exact congrArg (rotateLeft · 1) hgather
  intro entry hentry
  have hnames : ∀ entry ∈ P, 1 ≤ entry ∧ entry ≤ 32 := by decide
  have hpow : ∀ t < 32, BitVec.twoPow 32 t ≠ 0 := by decide
  have hpos := hnames entry hentry
  have hbit : value.getLsbD (32 - entry) = value.getMsbD (entry - 1) := by
    have hin : entry - 1 < 32 := by omega
    have hrev : 32 - 1 - (entry - 1) = 32 - entry := by omega
    rw [BitVec.getMsbD_eq_getLsbD, decide_eq_true hin, hrev, Bool.true_and]
  have hmask : (1 : ILUInt32) <<< (32 - entry) = BitVec.twoPow 32 (32 - entry) := rfl
  rw [hmask, BitVec.and_twoPow, hbit]
  cases value.getMsbD (entry - 1) with
  | false => simp
  | true => simpa using hpow _ (by omega)

/-- The four bits of an S-box, at their place among those of the others. -/
def placed (boxNum : Nat) (four : BitVec 4) : ILUInt32 := four.setWidth 32 <<< (28 - boxNum * 4)

theorem applySBox_eq {sbox : List Nat} (hsbox : ∀ entry ∈ sbox, entry < 16) (boxNum : Nat)
    (six : BitVec 6) :
    applySBox sbox boxNum (six.setWidth 32) = placed boxNum (substitute sbox six) := by
  have hindex : ∀ six : BitVec 6,
      ((if six.setWidth 32 &&& 0x01 ≠ 0 then
          (if six.setWidth 32 &&& 0x20 ≠ 0 then (2 : ILUInt32) else 0) ||| 1
        else if six.setWidth 32 &&& 0x20 ≠ 0 then 2 else 0) <<< 4 |||
        ((six.setWidth 32 : ILUInt32) >>> 1 &&& 0x0F)).toNat =
      16 * (2 * (six.getMsbD 0).toNat + (six.getMsbD 5).toNat) + (six.extractLsb' 1 4).toNat := by
    decide
  have hsmall : ∀ index, sbox.getD index 0 < 16 := by
    intro index
    rw [List.getD_eq_getElem?_getD]
    cases hentry : sbox[index]? with
    | none => decide
    | some entry => exact hsbox entry (List.mem_of_getElem? hentry)
  simp only [applySBox, placed, substitute, hindex]
  generalize 16 * _ + _ = index
  congr 1
  apply BitVec.eq_of_toNat_eq
  have hlt := hsmall index
  rw [BitVec.toNat_ofNat, BitVec.toNat_setWidth, BitVec.toNat_ofNat, Nat.mod_eq_of_lt hlt]

theorem genSPBox_getD {sbox : List Nat} (hsbox : ∀ entry ∈ sbox, entry < 16) (boxNum : Nat)
    (six : BitVec 6) :
    (genSPBox sbox boxNum).getD six.toNat 0 =
      rotateLeft (select P (placed boxNum (substitute sbox six))) 1 := by
  have hin : six.toNat < 64 := six.isLt
  rw [genSPBox, ← applySBox_eq hsbox, ← permute_eq]
  simp [hin]

/-! ### The rounds -/

theorem getsub_eq (temp : ILUInt32) (n : Nat) :
    (temp >>> n &&& 0x3F).toNat = (temp.extractLsb' n 6).toNat := by
  have hmask : (0x3F : ILUInt32).toNat = 2 ^ 6 - 1 := by decide
  rw [Lib.Bits.toNat_and_mask _ _ 6 hmask, BitVec.toNat_ushiftRight, BitVec.extractLsb'_toNat]

theorem rotateLeft_or (x y : ILUInt32) (n : Nat) :
    rotateLeft (x ||| y) n = rotateLeft x n ||| rotateLeft y n := by
  simp only [rotateLeft, BitVec.shiftLeft_or_distrib, BitVec.ushiftRight_or_distrib]
  ac_rfl

theorem rotateLeft_xor (x y : ILUInt32) {n : Nat} (hn : n ≤ 32) :
    rotateLeft (x ^^^ y) n = rotateLeft x n ^^^ rotateLeft y n := by
  apply BitVec.eq_of_getLsbD_eq
  intro i hi
  have hwired := wired_rotateLeft hn
  rw [BitVec.getLsbD_xor]
  refine (hwired _ i hi).trans ?_
  rw [BitVec.getLsbD_xor]
  exact (congrArg₂ xor (hwired x i hi) (hwired y i hi)).symm

theorem rotateLeft_injective : Function.Injective fun x : ILUInt32 => rotateLeft x 1 := by
  intro x y h
  have hback := fun x => rotateLeft_back x (n := 1) (by decide)
  rw [← hback x, ← hback y]
  exact congrArg (rotateLeft · 31) h

/-- The bits of a half that the two lookups of a round take. -/
theorem half_sixBits (R : BitVec 32) {j : Nat} (hj : j < 4) :
    (rotateLeft (rotateLeft R 1) 28).extractLsb' (24 - 8 * j) 6 = sixBits (select E R) (2 * j) ∧
      (rotateLeft R 1).extractLsb' (24 - 8 * j) 6 = sixBits (select E R) (2 * j + 1) := by
  have hone := wired_rotateLeft (n := 1) (by decide)
  have hback := (wired_rotateLeft (n := 28) (by decide)).comp hone
  have hE := Wired.select (n := 32) (m := 48) E
  have hout (start : Nat) := Wired.extract (n := 32) (m := 6) start
  have hbits (j : Nat) := Wired.extract (n := 48) (m := 6) (42 - 6 * j)
  have heven := fun h => Wired.eq ((hout (24 - 8 * j)).comp hback) ((hbits (2 * j)).comp hE) h R
  have hodd := fun h => Wired.eq ((hout (24 - 8 * j)).comp hone) ((hbits (2 * j + 1)).comp hE) h R
  interval_cases j
  all_goals exact ⟨heven (by decide), hodd (by decide)⟩

theorem packed_sixBits (K : BitVec 48) {j : Nat} (hj : j < 4) :
    (packed K).1.extractLsb' (24 - 8 * j) 6 = sixBits K (2 * j) ∧
      (packed K).2.extractLsb' (24 - 8 * j) 6 = sixBits K (2 * j + 1) := by
  have hsched (start : Nat) := Wired.setWidth (m := 32).comp
    (Wired.extract (n := 48) (m := 24) start)
  have hleft (start : Nat) (mask : ILUInt32) (shift : Nat) :=
    (Wired.shiftLeft shift).comp ((Wired.and mask).comp (hsched start))
  have hright (start : Nat) (mask : ILUInt32) (shift : Nat) :=
    (Wired.ushiftRight shift).comp ((Wired.and mask).comp (hsched start))
  have hfst : Wired (fun K => (packed K).1) _ :=
    (((hleft 24 0x00FC0000 6).or (hleft 24 0x00000FC0 10) (by decide)).or
      (hright 0 0x00FC0000 10) (by decide)).or (hright 0 0x00000FC0 6) (by decide)
  have hsnd : Wired (fun K => (packed K).2) _ :=
    (((hleft 24 0x0003F000 12).or (hleft 24 0x0000003F 16) (by decide)).or
      (hright 0 0x0003F000 4) (by decide)).or ((Wired.and 0x0000003F).comp (hsched 0))
      (by decide)
  have hout (start : Nat) := Wired.extract (n := 32) (m := 6) start
  have hbits (j : Nat) := Wired.extract (n := 48) (m := 6) (42 - 6 * j)
  have heven := fun h => Wired.eq ((hout (24 - 8 * j)).comp hfst) (hbits (2 * j)) h K
  have hodd := fun h => Wired.eq ((hout (24 - 8 * j)).comp hsnd) (hbits (2 * j + 1)) h K
  interval_cases j
  all_goals exact ⟨heven (by decide), hodd (by decide)⟩

/-- The results of the S-boxes side by side share no bit. -/
theorem append_placed (a b c d e f g h : BitVec 4) :
    (a ++ b ++ c ++ d ++ e ++ f ++ g ++ h : BitVec 32) =
      placed 6 g ||| placed 4 e ||| placed 2 c ||| placed 0 a |||
        (placed 7 h ||| placed 5 f ||| placed 3 d ||| placed 1 b) := by
  apply BitVec.eq_of_getLsbD_eq
  intro i hi
  -- the appended words have the width of a sum, which no rewriting takes for that of the goal
  have happend : BitVec.getLsbD (a ++ b ++ c ++ d ++ e ++ f ++ g ++ h) i =
      if i < 4 then h.getLsbD i else if i - 4 < 4 then g.getLsbD (i - 4)
      else if i - 4 - 4 < 4 then f.getLsbD (i - 4 - 4)
      else if i - 4 - 4 - 4 < 4 then e.getLsbD (i - 4 - 4 - 4)
      else if i - 4 - 4 - 4 - 4 < 4 then d.getLsbD (i - 4 - 4 - 4 - 4)
      else if i - 4 - 4 - 4 - 4 - 4 < 4 then c.getLsbD (i - 4 - 4 - 4 - 4 - 4)
      else if i - 4 - 4 - 4 - 4 - 4 - 4 < 4 then b.getLsbD (i - 4 - 4 - 4 - 4 - 4 - 4)
      else a.getLsbD (i - 4 - 4 - 4 - 4 - 4 - 4 - 4) := by
    simp only [BitVec.getLsbD_append]
  refine happend.trans ?_
  interval_cases i <;> simp [placed]

theorem spBoxes_packed (K : BitVec 48) (R : BitVec 32) :
    spBoxes (packed K) (rotateLeft R 1) = rotateLeft (cipher K R) 1 := by
  have heven (n j : Nat) (hj : j < 4) (hn : 24 - 8 * j = n) :
      ((rotateLeft (rotateLeft R 1) 28 ^^^ (packed K).1) >>> n &&& 0x3F).toNat =
        (sixBits (select E R ^^^ K) (2 * j)).toNat := by
    rw [← hn, getsub_eq, BitVec.extractLsb'_xor, (half_sixBits R hj).1, (packed_sixBits K hj).1,
      sixBits, sixBits, sixBits, BitVec.extractLsb'_xor]
  have hodd (n j : Nat) (hj : j < 4) (hn : 24 - 8 * j = n) :
      ((rotateLeft R 1 ^^^ (packed K).2) >>> n &&& 0x3F).toNat =
        (sixBits (select E R ^^^ K) (2 * j + 1)).toNat := by
    rw [← hn, getsub_eq, BitVec.extractLsb'_xor, (half_sixBits R hj).2, (packed_sixBits K hj).2,
      sixBits, sixBits, sixBits, BitVec.extractLsb'_xor]
  obtain ⟨h1, h2, h3, h4, h5, h6, h7, h8⟩ := genSPBox_eq
  simp only [spBoxes, heven 24 0 (by decide) rfl, heven 16 1 (by decide) rfl,
    heven 8 2 (by decide) rfl, heven 0 3 (by decide) rfl, hodd 24 0 (by decide) rfl,
    hodd 16 1 (by decide) rfl, hodd 8 2 (by decide) rfl, hodd 0 3 (by decide) rfl,
    ← h1, ← h2, ← h3, ← h4, ← h5, ← h6, ← h7, ← h8]
  have hsbox : ∀ sbox ∈ [SBox1, SBox2, SBox3, SBox4, SBox5, SBox6, SBox7, SBox8],
      ∀ entry ∈ sbox, entry < 16 := by decide
  simp only [List.forall_mem_cons] at hsbox
  obtain ⟨hs1, hs2, hs3, hs4, hs5, hs6, hs7, hs8, -⟩ := hsbox
  rw [genSPBox_getD hs1, genSPBox_getD hs2, genSPBox_getD hs3, genSPBox_getD hs4,
    genSPBox_getD hs5, genSPBox_getD hs6, genSPBox_getD hs7, genSPBox_getD hs8, cipher, sBoxes,
    append_placed]
  simp only [rotateLeft_or, select_or]

/-- With an encrypting schedule, a block is processed as the standard enciphers it. -/
theorem ilDESProcess_encipher (key block : BitVec 64) :
    ilDESProcess (ilDESInit (octets key) false) (octets block) = octets (encipher key block) := by
  have hkeys := roundKeys_createDESSchedule key
  have hsame := network_map (rotateLeft · 1) packed (fun x y => rotateLeft_xor x y (by decide))
    spBoxes_packed ((List.range 16).map (Standard.roundKey key))
    (high (select IP block), low (select IP block))
  rw [← hkeys] at hsame
  generalize hhalves : network cipher ((List.range 16).map (Standard.roundKey key))
    (high (select IP block), low (select IP block)) = halves at hsame
  simp only [Prod.map_apply] at hsame
  have hout := input_output (rotateLeft halves.1 1) (rotateLeft halves.2 1)
  rw [ilDESProcess, ilDESInit, octets_eq block, processDESBlock_eq, inputPermutation_eq, hsame,
    Prod.map_fst, Prod.map_snd]
  generalize outputPermutation _ _ = out at hout ⊢
  -- the standard's last permutation is found from the block that its first one takes to the halves
  have hin := inputPermutation_eq (out.2 ++ out.1)
  rw [high_append, low_append, hout, Prod.mk.injEq] at hin
  have hhigh : halves.2 = high (select IP (out.2 ++ out.1)) := rotateLeft_injective hin.1
  have hlow : halves.1 = low (select IP (out.2 ++ out.1)) := rotateLeft_injective hin.2
  have hencipher : encipher key block = select FP (halves.2 ++ halves.1) := by
    simp only [encipher, ← hhalves, high, low]
  rw [hencipher, hhigh, hlow, append_high_low, select_FP_IP, octets_eq, high_append, low_append]

end Pnet.Support.DES
