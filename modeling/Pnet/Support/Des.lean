import Pnet.Lib.Folds
import Pnet.Support.Aes
import Pnet.Support.DigestBlocks

/-! The ciphers of `des.c`. -/
namespace Pnet.Support.DES

def SPBox1 : List ILUInt32 :=
  [0x01010400, 0x00000000, 0x00010000, 0x01010404, 0x01010004, 0x00010404, 0x00000004,
   0x00010000, 0x00000400, 0x01010400, 0x01010404, 0x00000400, 0x01000404, 0x01010004,
   0x01000000, 0x00000004, 0x00000404, 0x01000400, 0x01000400, 0x00010400, 0x00010400,
   0x01010000, 0x01010000, 0x01000404, 0x00010004, 0x01000004, 0x01000004, 0x00010004,
   0x00000000, 0x00000404, 0x00010404, 0x01000000, 0x00010000, 0x01010404, 0x00000004,
   0x01010000, 0x01010400, 0x01000000, 0x01000000, 0x00000400, 0x01010004, 0x00010000,
   0x00010400, 0x01000004, 0x00000400, 0x00000004, 0x01000404, 0x00010404, 0x01010404,
   0x00010004, 0x01010000, 0x01000404, 0x01000004, 0x00000404, 0x00010404, 0x01010400,
   0x00000404, 0x01000400, 0x01000400, 0x00000000, 0x00010004, 0x00010400, 0x00000000,
   0x01010004]

def SPBox2 : List ILUInt32 :=
  [0x80108020, 0x80008000, 0x00008000, 0x00108020, 0x00100000, 0x00000020, 0x80100020,
   0x80008020, 0x80000020, 0x80108020, 0x80108000, 0x80000000, 0x80008000, 0x00100000,
   0x00000020, 0x80100020, 0x00108000, 0x00100020, 0x80008020, 0x00000000, 0x80000000,
   0x00008000, 0x00108020, 0x80100000, 0x00100020, 0x80000020, 0x00000000, 0x00108000,
   0x00008020, 0x80108000, 0x80100000, 0x00008020, 0x00000000, 0x00108020, 0x80100020,
   0x00100000, 0x80008020, 0x80100000, 0x80108000, 0x00008000, 0x80100000, 0x80008000,
   0x00000020, 0x80108020, 0x00108020, 0x00000020, 0x00008000, 0x80000000, 0x00008020,
   0x80108000, 0x00100000, 0x80000020, 0x00100020, 0x80008020, 0x80000020, 0x00100020,
   0x00108000, 0x00000000, 0x80008000, 0x00008020, 0x80000000, 0x80100020, 0x80108020,
   0x00108000]

def SPBox3 : List ILUInt32 :=
  [0x00000208, 0x08020200, 0x00000000, 0x08020008, 0x08000200, 0x00000000, 0x00020208,
   0x08000200, 0x00020008, 0x08000008, 0x08000008, 0x00020000, 0x08020208, 0x00020008,
   0x08020000, 0x00000208, 0x08000000, 0x00000008, 0x08020200, 0x00000200, 0x00020200,
   0x08020000, 0x08020008, 0x00020208, 0x08000208, 0x00020200, 0x00020000, 0x08000208,
   0x00000008, 0x08020208, 0x00000200, 0x08000000, 0x08020200, 0x08000000, 0x00020008,
   0x00000208, 0x00020000, 0x08020200, 0x08000200, 0x00000000, 0x00000200, 0x00020008,
   0x08020208, 0x08000200, 0x08000008, 0x00000200, 0x00000000, 0x08020008, 0x08000208,
   0x00020000, 0x08000000, 0x08020208, 0x00000008, 0x00020208, 0x00020200, 0x08000008,
   0x08020000, 0x08000208, 0x00000208, 0x08020000, 0x00020208, 0x00000008, 0x08020008,
   0x00020200]

def SPBox4 : List ILUInt32 :=
  [0x00802001, 0x00002081, 0x00002081, 0x00000080, 0x00802080, 0x00800081, 0x00800001,
   0x00002001, 0x00000000, 0x00802000, 0x00802000, 0x00802081, 0x00000081, 0x00000000,
   0x00800080, 0x00800001, 0x00000001, 0x00002000, 0x00800000, 0x00802001, 0x00000080,
   0x00800000, 0x00002001, 0x00002080, 0x00800081, 0x00000001, 0x00002080, 0x00800080,
   0x00002000, 0x00802080, 0x00802081, 0x00000081, 0x00800080, 0x00800001, 0x00802000,
   0x00802081, 0x00000081, 0x00000000, 0x00000000, 0x00802000, 0x00002080, 0x00800080,
   0x00800081, 0x00000001, 0x00802001, 0x00002081, 0x00002081, 0x00000080, 0x00802081,
   0x00000081, 0x00000001, 0x00002000, 0x00800001, 0x00002001, 0x00802080, 0x00800081,
   0x00002001, 0x00002080, 0x00800000, 0x00802001, 0x00000080, 0x00800000, 0x00002000,
   0x00802080]

def SPBox5 : List ILUInt32 :=
  [0x00000100, 0x02080100, 0x02080000, 0x42000100, 0x00080000, 0x00000100, 0x40000000,
   0x02080000, 0x40080100, 0x00080000, 0x02000100, 0x40080100, 0x42000100, 0x42080000,
   0x00080100, 0x40000000, 0x02000000, 0x40080000, 0x40080000, 0x00000000, 0x40000100,
   0x42080100, 0x42080100, 0x02000100, 0x42080000, 0x40000100, 0x00000000, 0x42000000,
   0x02080100, 0x02000000, 0x42000000, 0x00080100, 0x00080000, 0x42000100, 0x00000100,
   0x02000000, 0x40000000, 0x02080000, 0x42000100, 0x40080100, 0x02000100, 0x40000000,
   0x42080000, 0x02080100, 0x40080100, 0x00000100, 0x02000000, 0x42080000, 0x42080100,
   0x00080100, 0x42000000, 0x42080100, 0x02080000, 0x00000000, 0x40080000, 0x42000000,
   0x00080100, 0x02000100, 0x40000100, 0x00080000, 0x00000000, 0x40080000, 0x02080100,
   0x40000100]

def SPBox6 : List ILUInt32 :=
  [0x20000010, 0x20400000, 0x00004000, 0x20404010, 0x20400000, 0x00000010, 0x20404010,
   0x00400000, 0x20004000, 0x00404010, 0x00400000, 0x20000010, 0x00400010, 0x20004000,
   0x20000000, 0x00004010, 0x00000000, 0x00400010, 0x20004010, 0x00004000, 0x00404000,
   0x20004010, 0x00000010, 0x20400010, 0x20400010, 0x00000000, 0x00404010, 0x20404000,
   0x00004010, 0x00404000, 0x20404000, 0x20000000, 0x20004000, 0x00000010, 0x20400010,
   0x00404000, 0x20404010, 0x00400000, 0x00004010, 0x20000010, 0x00400000, 0x20004000,
   0x20000000, 0x00004010, 0x20000010, 0x20404010, 0x00404000, 0x20400000, 0x00404010,
   0x20404000, 0x00000000, 0x20400010, 0x00000010, 0x00004000, 0x20400000, 0x00404010,
   0x00004000, 0x00400010, 0x20004010, 0x00000000, 0x20404000, 0x20000000, 0x00400010,
   0x20004010]

def SPBox7 : List ILUInt32 :=
  [0x00200000, 0x04200002, 0x04000802, 0x00000000, 0x00000800, 0x04000802, 0x00200802,
   0x04200800, 0x04200802, 0x00200000, 0x00000000, 0x04000002, 0x00000002, 0x04000000,
   0x04200002, 0x00000802, 0x04000800, 0x00200802, 0x00200002, 0x04000800, 0x04000002,
   0x04200000, 0x04200800, 0x00200002, 0x04200000, 0x00000800, 0x00000802, 0x04200802,
   0x00200800, 0x00000002, 0x04000000, 0x00200800, 0x04000000, 0x00200800, 0x00200000,
   0x04000802, 0x04000802, 0x04200002, 0x04200002, 0x00000002, 0x00200002, 0x04000000,
   0x04000800, 0x00200000, 0x04200800, 0x00000802, 0x00200802, 0x04200800, 0x00000802,
   0x04000002, 0x04200802, 0x04200000, 0x00200800, 0x00000000, 0x00000002, 0x04200802,
   0x00000000, 0x00200802, 0x04200000, 0x00000800, 0x04000002, 0x04000800, 0x00000800,
   0x00200002]

def SPBox8 : List ILUInt32 :=
  [0x10001040, 0x00001000, 0x00040000, 0x10041040, 0x10000000, 0x10001040, 0x00000040,
   0x10000000, 0x00040040, 0x10040000, 0x10041040, 0x00041000, 0x10041000, 0x00041040,
   0x00001000, 0x00000040, 0x10040000, 0x10000040, 0x10001000, 0x00001040, 0x00041000,
   0x00040040, 0x10040040, 0x10041000, 0x00001040, 0x00000000, 0x00000000, 0x10040040,
   0x10000040, 0x10001000, 0x00041040, 0x00040000, 0x00041040, 0x00040000, 0x10041000,
   0x00001000, 0x00000040, 0x10040040, 0x00001000, 0x00041040, 0x10001000, 0x00000040,
   0x10000040, 0x10040000, 0x10040040, 0x10000000, 0x00040000, 0x10001040, 0x00000000,
   0x10041040, 0x00040040, 0x10000040, 0x10040000, 0x10001000, 0x10001040, 0x00000000,
   0x10041040, 0x00041000, 0x00041000, 0x00001040, 0x00001040, 0x00040040, 0x10000000,
   0x10041000]

def PC1 : List Nat :=
  [57, 49, 41, 33, 25, 17, 9, 1, 58, 50, 42, 34, 26, 18,
   10, 2, 59, 51, 43, 35, 27, 19, 11, 3, 60, 52, 44, 36,
   63, 55, 47, 39, 31, 23, 15, 7, 62, 54, 46, 38, 30, 22,
   14, 6, 61, 53, 45, 37, 29, 21, 13, 5, 28, 20, 12, 4]

def PC2 : List Nat :=
  [14, 17, 11, 24, 1, 5, 3, 28, 15, 6, 21, 10,
   23, 19, 12, 4, 26, 8, 16, 7, 27, 20, 13, 2,
   41, 52, 31, 37, 47, 55, 30, 40, 51, 45, 33, 48,
   44, 49, 39, 56, 34, 53, 46, 42, 50, 36, 29, 32]

/-- `BitToKS[index]` -/
def bitToKS (index : Nat) : ILUInt32 := 1 <<< (27 - index)

def LRotate : List Nat := [1, 1, 2, 2, 2, 2, 2, 2, 1, 2, 2, 2, 2, 2, 2, 1]

/-! ### The key schedule -/

def rotate28 (x : ILUInt32) (n : Nat) : ILUInt32 := (x <<< n ||| x >>> (28 - n)) &&& 0x0FFFFFFF

/-- `C` or `D`, from a half of `PC1`. -/
def halfKey (key : List ILUInt8) (half : List Nat) : ILUInt32 :=
  half.zipIdx.foldl (fun word (entry, bit) =>
    let select := entry - 1
    if key.getD (select / 8) 0 &&& (0x80 >>> (select % 8)) ≠ 0 then word ||| bitToKS bit
    else word) 0

/-- `schedA` or `schedB`, from a half of `PC2`. -/
def halfSchedule (C D : ILUInt32) (half : List Nat) : ILUInt32 :=
  half.zipIdx.foldl (fun word (entry, bit) =>
    let select := entry - 1
    let set :=
      if select < 28 then C &&& bitToKS select ≠ 0 else D &&& bitToKS (select - 28) ≠ 0
    if set then word ||| bitToKS (bit + 4) else word) 0

/-- The two words of a round, from the rotated `C` and `D`. -/
def roundKey (C D : ILUInt32) : ILUInt32 × ILUInt32 :=
  let schedA := halfSchedule C D (PC2.take 24)
  let schedB := halfSchedule C D (PC2.drop 24)
  ((schedA &&& 0x00FC0000) <<< 6 ||| (schedA &&& 0x00000FC0) <<< 10 |||
      (schedB &&& 0x00FC0000) >>> 10 ||| (schedB &&& 0x00000FC0) >>> 6,
    (schedA &&& 0x0003F000) <<< 12 ||| (schedA &&& 0x0000003F) <<< 16 |||
      (schedB &&& 0x0003F000) >>> 4 ||| (schedB &&& 0x0000003F))

/-- `C` or `D` in a round. -/
def rotated (word : ILUInt32) (round : Nat) : ILUInt32 :=
  (LRotate.take (round + 1)).foldl rotate28 word

/-- The words of the rounds, each pair at its place. -/
def placeKeys (keys : Nat → ILUInt32 × ILUInt32) (decrypt : Bool) : List ILUInt32 :=
  (List.range 16).foldl (fun ks round =>
    let posn := if decrypt then 30 - round * 2 else round * 2
    (ks.set posn (keys round).1).set (posn + 1) (keys round).2) (List.replicate 32 0)

structure ILDESContext where
  ks : List ILUInt32
deriving DecidableEq, Repr

def createDESSchedule (key : List ILUInt8) (decrypt : Bool) : ILDESContext :=
  let C := halfKey key (PC1.take 28)
  let D := halfKey key (PC1.drop 28)
  ⟨placeKeys (fun round => roundKey (rotated C round) (rotated D round)) decrypt⟩

/-! ### Blocks -/

/-- `IPSTEP(l, r, shift, mask)` -/
def ipstep (shift : Nat) (mask l r : ILUInt32) : ILUInt32 × ILUInt32 :=
  let temp := (l >>> shift ^^^ r) &&& mask
  (l ^^^ temp <<< shift, r ^^^ temp)

/-- The bits of `0xAAAAAAAA` are exchanged. -/
def exchange (L R : ILUInt32) : ILUInt32 × ILUInt32 :=
  let temp := (L ^^^ R) &&& 0xAAAAAAAA
  (L ^^^ temp, R ^^^ temp)

/-- Perform the input permutation. -/
def inputPermutation (L R : ILUInt32) : ILUInt32 × ILUInt32 :=
  let (L, R) := ipstep 4 0x0F0F0F0F L R
  let (L, R) := ipstep 16 0x0000FFFF L R
  let (R, L) := ipstep 2 0x33333333 R L
  let (R, L) := ipstep 8 0x00FF00FF R L
  let R := rotateLeft R 1
  let (L, R) := exchange L R
  (rotateLeft L 1, R)

/-- Perform the output permutation. -/
def outputPermutation (L R : ILUInt32) : ILUInt32 × ILUInt32 :=
  let R := rotateLeft R 31
  let (L, R) := exchange L R
  let L := rotateLeft L 31
  let (L, R) := ipstep 8 0x00FF00FF L R
  let (L, R) := ipstep 2 0x33333333 L R
  let (R, L) := ipstep 16 0x0000FFFF R L
  let (R, L) := ipstep 4 0x0F0F0F0F R L
  (L, R)

/-- The SP computation of a half with the two words of a round. -/
def spBoxes (key : ILUInt32 × ILUInt32) (half : ILUInt32) : ILUInt32 :=
  let getsub (temp : ILUInt32) (n : Nat) := (temp >>> n &&& 0x3F).toNat
  let temp := rotateLeft half 28 ^^^ key.1
  let temp2 := SPBox7.getD (getsub temp 0) 0 ||| SPBox5.getD (getsub temp 8) 0 |||
    SPBox3.getD (getsub temp 16) 0 ||| SPBox1.getD (getsub temp 24) 0
  let temp := half ^^^ key.2
  temp2 ||| (SPBox8.getD (getsub temp 0) 0 ||| SPBox6.getD (getsub temp 8) 0 |||
    SPBox4.getD (getsub temp 16) 0 ||| SPBox2.getD (getsub temp 24) 0)

/-- Two rounds, with the words from `4 * round` on. -/
def doubleRound (ks : List ILUInt32) (halves : ILUInt32 × ILUInt32) (round : Nat) :
    ILUInt32 × ILUInt32 :=
  let L := halves.1 ^^^ spBoxes (ks.getD (4 * round) 0, ks.getD (4 * round + 1) 0) halves.2
  let R := halves.2 ^^^ spBoxes (ks.getD (4 * round + 2) 0, ks.getD (4 * round + 3) 0) L
  (L, R)

def processDESBlock (ks : List ILUInt32) (input : List ILUInt8) : List ILUInt8 :=
  let halves := inputPermutation (breadInt32 input 0) (breadInt32 input 4)
  let (L, R) := (List.range 8).foldl (doubleRound ks) halves
  let (L, R) := outputPermutation L R
  bwriteInt32 R ++ bwriteInt32 L

def ilDESInit : List ILUInt8 → Bool → ILDESContext := createDESSchedule

def ilDESProcess (des : ILDESContext) : List ILUInt8 → List ILUInt8 := processDESBlock des.ks

structure ILDES3Context where
  k1 : ILDESContext
  k2 : ILDESContext
  k3 : ILDESContext
deriving DecidableEq, Repr

def ilDES3Init (key : List ILUInt8) (keyBits : Nat) (decrypt : Bool) : ILDES3Context :=
  if keyBits = 192 then
    if decrypt then
      ⟨createDESSchedule (key.drop 16) true, createDESSchedule (key.drop 8) false,
        createDESSchedule key true⟩
    else
      ⟨createDESSchedule key false, createDESSchedule (key.drop 8) true,
        createDESSchedule (key.drop 16) false⟩
  else
    ⟨createDESSchedule key decrypt, createDESSchedule (key.drop 8) !decrypt,
      createDESSchedule key decrypt⟩

end Pnet.Support.DES

/-! ### Decryption undoes encryption

With the reversed key schedule, the rounds of `des.c` take themselves back. -/
namespace Pnet.Support.DES
open Lib.ByteJoin Lib.Undo

/-! ### The permutations -/

theorem rotateLeft_back (x : ILUInt32) {n : Nat} (hn : n ≤ 32) :
    rotateLeft (rotateLeft x n) (32 - n) = x := by
  have hback := rotate_back x hn
  have hsub : 32 - (32 - n) = n := by omega
  rwa [rotateLeft, rotateLeft, hsub]

/-- A mask that is shifted without loss. -/
def MaskFits (shift : Nat) (mask : ILUInt32) : Prop :=
  ∀ x : ILUInt32, ((x &&& mask) <<< shift) >>> shift = x &&& mask

theorem maskFits_of_lt {shift : Nat} {mask : ILUInt32} (h : mask.toNat < 2 ^ (32 - shift)) :
    MaskFits shift mask := by
  intro x
  apply BitVec.eq_of_getLsbD_eq
  intro i hi
  by_cases hlow : i + shift < 32
  · have hin : shift + i < 32 := by omega
    simp [hi, hin]
  · have hout : mask.getLsbD i = false :=
      Nat.testBit_lt_two_pow (h.trans_le (Nat.pow_le_pow_right (by decide) (by omega)))
    have hge : ¬shift + i < 32 := by omega
    simp [hout, hge]

theorem ipstep_ipstep {shift : Nat} {mask : ILUInt32} (hmask : MaskFits shift mask)
    (l r : ILUInt32) :
    ipstep shift mask (ipstep shift mask l r).1 (ipstep shift mask l r).2 = (l, r) := by
  have hfits := hmask (l >>> shift ^^^ r)
  simp only [ipstep]
  generalize htemp : (l >>> shift ^^^ r) &&& mask = temp at hfits ⊢
  have hsame : (l ^^^ temp <<< shift) >>> shift ^^^ (r ^^^ temp) = l >>> shift ^^^ r := by
    rw [BitVec.ushiftRight_xor_distrib, hfits]
    calc l >>> shift ^^^ temp ^^^ (r ^^^ temp) = l >>> shift ^^^ r ^^^ (temp ^^^ temp) := by ac_rfl
      _ = l >>> shift ^^^ r := by rw [BitVec.xor_self, BitVec.xor_zero]
  rw [hsame, htemp, BitVec.xor_assoc, BitVec.xor_self, BitVec.xor_zero, BitVec.xor_assoc,
    BitVec.xor_self, BitVec.xor_zero]

theorem exchange_exchange (L R : ILUInt32) :
    exchange (exchange L R).2 (exchange L R).1 = (R, L) := by
  simp only [exchange]
  generalize htemp : (L ^^^ R) &&& 0xAAAAAAAA = temp
  have hsame : R ^^^ temp ^^^ (L ^^^ temp) = L ^^^ R := by
    calc R ^^^ temp ^^^ (L ^^^ temp) = L ^^^ R ^^^ (temp ^^^ temp) := by ac_rfl
      _ = L ^^^ R := by rw [BitVec.xor_self, BitVec.xor_zero]
  rw [hsame, htemp, BitVec.xor_assoc, BitVec.xor_self, BitVec.xor_zero, BitVec.xor_assoc,
    BitVec.xor_self, BitVec.xor_zero]

theorem maskFits_4 : MaskFits 4 0x0F0F0F0F := maskFits_of_lt (by decide)

theorem maskFits_16 : MaskFits 16 0x0000FFFF := maskFits_of_lt (by decide)

theorem maskFits_2 : MaskFits 2 0x33333333 := maskFits_of_lt (by decide)

theorem maskFits_8 : MaskFits 8 0x00FF00FF := maskFits_of_lt (by decide)

theorem output_input (L R : ILUInt32) :
    outputPermutation (inputPermutation L R).2 (inputPermutation L R).1 = (R, L) := by
  have hrotate := fun x => rotateLeft_back x (n := 1) (by decide)
  simp only [outputPermutation, inputPermutation, hrotate, exchange_exchange,
    ipstep_ipstep maskFits_8, ipstep_ipstep maskFits_2, ipstep_ipstep maskFits_16,
    ipstep_ipstep maskFits_4]

theorem input_output (L R : ILUInt32) :
    inputPermutation (outputPermutation L R).2 (outputPermutation L R).1 = (R, L) := by
  have hrotate := fun x => rotateLeft_back x (n := 31) (by decide)
  simp only [outputPermutation, inputPermutation, hrotate, exchange_exchange,
    ipstep_ipstep maskFits_8, ipstep_ipstep maskFits_2, ipstep_ipstep maskFits_16,
    ipstep_ipstep maskFits_4]

/-! ### The rounds -/

/-- The two words of each round. -/
def roundKeys (ks : List ILUInt32) : List (ILUInt32 × ILUInt32) :=
  (List.range 16).map fun round => (ks.getD (2 * round) 0, ks.getD (2 * round + 1) 0)

theorem foldl_doubleRound (ks : List ILUInt32) (halves : ILUInt32 × ILUInt32) :
    (List.range 8).foldl (doubleRound ks) halves = network spBoxes (roundKeys ks) halves := rfl

theorem roundKeys_placeKeys (keys : Nat → ILUInt32 × ILUInt32) :
    roundKeys (placeKeys keys false) = (List.range 16).map keys ∧
      roundKeys (placeKeys keys true) = ((List.range 16).map keys).reverse := by
  simp [roundKeys, placeKeys, List.range_succ, List.replicate]

theorem roundKeys_not (key : List ILUInt8) (decrypt : Bool) :
    roundKeys (createDESSchedule key !decrypt).ks =
      (roundKeys (createDESSchedule key decrypt).ks).reverse := by
  simp only [createDESSchedule]
  generalize (fun round => roundKey _ _) = keys
  cases decrypt with
  | false => rw [Bool.not_false, (roundKeys_placeKeys keys).2, (roundKeys_placeKeys keys).1]
  | true =>
    rw [Bool.not_true, (roundKeys_placeKeys keys).2, (roundKeys_placeKeys keys).1,
      List.reverse_reverse]

/-! ### Blocks -/

theorem processDESBlock_eq (ks : List ILUInt32) (L R : ILUInt32) :
    processDESBlock ks (bwriteInt32 L ++ bwriteInt32 R) =
      bwriteInt32 (outputPermutation
          (network spBoxes (roundKeys ks) (inputPermutation L R)).1
          (network spBoxes (roundKeys ks) (inputPermutation L R)).2).2 ++
        bwriteInt32 (outputPermutation
          (network spBoxes (roundKeys ks) (inputPermutation L R)).1
          (network spBoxes (roundKeys ks) (inputPermutation L R)).2).1 := by
  have hL : breadInt32 (bwriteInt32 L ++ bwriteInt32 R) 0 = L := join_bytes32 L
  have hR : breadInt32 (bwriteInt32 L ++ bwriteInt32 R) 4 = R := join_bytes32 R
  rw [processDESBlock, hL, hR, foldl_doubleRound]

/-- Keys in reverse order take the rounds back. -/
theorem processDESBlock_reverse {ks ks' : List ILUInt32}
    (hks : roundKeys ks' = (roundKeys ks).reverse) {block : List ILUInt8}
    (hblock : block.length = 8) : processDESBlock ks' (processDESBlock ks block) = block := by
  match block, hblock with
  | [a, b, c, d, e, f, g, h], _ =>
    have hwords : [a, b, c, d, e, f, g, h] =
      bwriteInt32 (d.setWidth 32 ||| c.setWidth 32 <<< 8 ||| b.setWidth 32 <<< 16 |||
        a.setWidth 32 <<< 24) ++
      bwriteInt32 (h.setWidth 32 ||| g.setWidth 32 <<< 8 ||| f.setWidth 32 <<< 16 |||
        e.setWidth 32 <<< 24) := by rw [bwriteInt32_read, bwriteInt32_read]; rfl
    rw [hwords]
    generalize d.setWidth 32 ||| c.setWidth 32 <<< 8 ||| b.setWidth 32 <<< 16 |||
      a.setWidth 32 <<< 24 = L
    generalize h.setWidth 32 ||| g.setWidth 32 <<< 8 ||| f.setWidth 32 <<< 16 |||
      e.setWidth 32 <<< 24 = R
    have hback := network_reverse spBoxes (roundKeys ks) (inputPermutation L R)
    rw [processDESBlock_eq, processDESBlock_eq, input_output, hks]
    change network spBoxes (roundKeys ks).reverse (_, _) = _ at hback
    rw [hback, Prod.fst_swap, Prod.snd_swap, output_input]

theorem length_processDESBlock (ks : List ILUInt32) (block : List ILUInt8) :
    (processDESBlock ks block).length = 8 := rfl

/-- The two schedules of a key take each other back. -/
theorem process_process (key : List ILUInt8) (decrypt : Bool) {block : List ILUInt8}
    (hblock : block.length = 8) :
    processDESBlock (createDESSchedule key !decrypt).ks
      (processDESBlock (createDESSchedule key decrypt).ks block) = block :=
  processDESBlock_reverse (roundKeys_not key decrypt) hblock

end Pnet.Support.DES
