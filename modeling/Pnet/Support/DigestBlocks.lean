import Pnet.CTypes

/-! The compression functions of `md5.c`, `sha1.c`, `sha256.c`, `sha512.c` and `ripemd160.c`: the
static function `ProcessBlock` of each file, and `WriteLong`. -/
namespace Pnet.Support

/-- `ROTATE` to the left. -/
def rotateLeft {w : Nat} (x : BitVec w) (n : Nat) : BitVec w := (x <<< n) ||| (x >>> (w - n))

/-- `ROTATE` to the right. -/
def rotateRight {w : Nat} (x : BitVec w) (n : Nat) : BitVec w := (x >>> n) ||| (x <<< (w - n))

/-- A word from the bytes of a block, the first one on top. -/
def wordBig (w : Nat) (bytes : List ILUInt8) : BitVec w :=
  bytes.foldl (fun word byte => (word <<< 8) ||| byte.setWidth w) 0

/-- A word from the bytes of a block, the last one on top. -/
def wordLittle (w : Nat) (bytes : List ILUInt8) : BitVec w := wordBig w bytes.reverse

/-- `WriteLong` of `sha1.c` and `sha256.c`. -/
def writeLongBig (value : ILUInt32) : List ILUInt8 :=
  [(value >>> 24).setWidth 8, (value >>> 16).setWidth 8, (value >>> 8).setWidth 8,
    value.setWidth 8]

/-- `WriteLong` of `md5.c` and `ripemd160.c`. -/
def writeLongLittle (value : ILUInt32) : List ILUInt8 :=
  [value.setWidth 8, (value >>> 8).setWidth 8, (value >>> 16).setWidth 8,
    (value >>> 24).setWidth 8]

/-- `WriteLong` of `sha512.c`. -/
def writeLongBig64 (value : ILUInt64) : List ILUInt8 :=
  [(value >>> 56).setWidth 8, (value >>> 48).setWidth 8, (value >>> 40).setWidth 8,
    (value >>> 32).setWidth 8, (value >>> 24).setWidth 8, (value >>> 16).setWidth 8,
    (value >>> 8).setWidth 8, value.setWidth 8]

/-! ### md5.c -/

namespace MD5

structure State where
  A : ILUInt32
  B : ILUInt32
  C : ILUInt32
  D : ILUInt32
deriving DecidableEq, Repr

def fround1 (x y z : ILUInt32) : ILUInt32 := (x &&& y) ||| (~~~x &&& z)

def fround2 (x y z : ILUInt32) : ILUInt32 := (x &&& z) ||| (y &&& ~~~z)

def fround3 (x y z : ILUInt32) : ILUInt32 := x ^^^ y ^^^ z

def fround4 (x y z : ILUInt32) : ILUInt32 := y ^^^ (x ||| ~~~z)

/-- The words, shifts and constants of the calls of `FFROUND1`; so for the other rounds. -/
def round1 : List (Nat × Nat × ILUInt32) :=
  [(0, 7, 0xD76AA478), (1, 12, 0xE8C7B756), (2, 17, 0x242070DB), (3, 22, 0xC1BDCEEE),
   (4, 7, 0xF57C0FAF), (5, 12, 0x4787C62A), (6, 17, 0xA8304613), (7, 22, 0xFD469501),
   (8, 7, 0x698098D8), (9, 12, 0x8B44F7AF), (10, 17, 0xFFFF5BB1), (11, 22, 0x895CD7BE),
   (12, 7, 0x6B901122), (13, 12, 0xFD987193), (14, 17, 0xA679438E), (15, 22, 0x49B40821)]

def round2 : List (Nat × Nat × ILUInt32) :=
  [(1, 5, 0xF61E2562), (6, 9, 0xC040B340), (11, 14, 0x265E5A51), (0, 20, 0xE9B6C7AA),
   (5, 5, 0xD62F105D), (10, 9, 0x02441453), (15, 14, 0xD8A1E681), (4, 20, 0xE7D3FBC8),
   (9, 5, 0x21E1CDE6), (14, 9, 0xC33707D6), (3, 14, 0xF4D50D87), (8, 20, 0x455A14ED),
   (13, 5, 0xA9E3E905), (2, 9, 0xFCEFA3F8), (7, 14, 0x676F02D9), (12, 20, 0x8D2A4C8A)]

def round3 : List (Nat × Nat × ILUInt32) :=
  [(5, 4, 0xFFFA3942), (8, 11, 0x8771F681), (11, 16, 0x6D9D6122), (14, 23, 0xFDE5380C),
   (1, 4, 0xA4BEEA44), (4, 11, 0x4BDECFA9), (7, 16, 0xF6BB4B60), (10, 23, 0xBEBFBC70),
   (13, 4, 0x289B7EC6), (0, 11, 0xEAA127FA), (3, 16, 0xD4EF3085), (6, 23, 0x04881D05),
   (9, 4, 0xD9D4D039), (12, 11, 0xE6DB99E5), (15, 16, 0x1FA27CF8), (2, 23, 0xC4AC5665)]

def round4 : List (Nat × Nat × ILUInt32) :=
  [(0, 6, 0xF4292244), (7, 10, 0x432AFF97), (14, 15, 0xAB9423A7), (5, 21, 0xFC93A039),
   (12, 6, 0x655B59C3), (3, 10, 0x8F0CCC92), (10, 15, 0xFFEFF47D), (1, 21, 0x85845DD1),
   (8, 6, 0x6FA87E4F), (15, 10, 0xFE2CE6E0), (6, 15, 0xA3014314), (13, 21, 0x4E0811A1),
   (4, 6, 0xF7537E82), (11, 10, 0xBD3AF235), (2, 15, 0x2AD7D2BB), (9, 21, 0xEB86D391)]

/-- `FFROUND`, with the registers in the order in which the next call names them. -/
def ffround (f : ILUInt32 → ILUInt32 → ILUInt32 → ILUInt32) (W : Nat → ILUInt32) (state : State)
    (row : Nat × Nat × ILUInt32) : State where
  A := state.D
  B := rotateLeft (state.A + f state.B state.C state.D + W row.1 + row.2.2) row.2.1 + state.B
  C := state.B
  D := state.C

def processBlock (md5 : State) (block : List ILUInt8) : State :=
  let W t := wordLittle 32 ((block.drop (t * 4)).take 4)
  let result := round4.foldl (ffround fround4 W) (round3.foldl (ffround fround3 W)
    (round2.foldl (ffround fround2 W) (round1.foldl (ffround fround1 W) md5)))
  ⟨md5.A + result.A, md5.B + result.B, md5.C + result.C, md5.D + result.D⟩

end MD5

/-! ### sha1.c -/

namespace SHA

structure State where
  A : ILUInt32
  B : ILUInt32
  C : ILUInt32
  D : ILUInt32
  E : ILUInt32
deriving DecidableEq, Repr

def fround1 (x y z : ILUInt32) : ILUInt32 := (x &&& y) ||| (~~~x &&& z)

def fround2 (x y z : ILUInt32) : ILUInt32 := x ^^^ y ^^^ z

def fround3 (x y z : ILUInt32) : ILUInt32 := (x &&& y) ||| (x &&& z) ||| (y &&& z)

def fround4 (x y z : ILUInt32) : ILUInt32 := x ^^^ y ^^^ z

/-- `W[t]` from the words before it. -/
def expand (W : List ILUInt32) (t : Nat) : List ILUInt32 :=
  W ++ [rotateLeft (W.getD (t - 3) 0 ^^^ W.getD (t - 8) 0 ^^^ W.getD (t - 14) 0 ^^^
    W.getD (t - 16) 0) 1]

def unpack (block : List ILUInt8) : List ILUInt32 :=
  (List.range' 16 64).foldl expand
    ((List.range 16).map fun t => wordBig 32 ((block.drop (t * 4)).take 4))

def round (f : ILUInt32 → ILUInt32 → ILUInt32 → ILUInt32) (k : ILUInt32) (state : State)
    (word : ILUInt32) : State where
  A := rotateLeft state.A 5 + f state.B state.C state.D + state.E + word + k
  B := state.A
  C := rotateLeft state.B 30
  D := state.C
  E := state.D

def processBlock (sha : State) (block : List ILUInt8) : State :=
  let W := unpack block
  let state := (W.take 20).foldl (round fround1 0x5A827999) sha
  let state := ((W.drop 20).take 20).foldl (round fround2 0x6ED9EBA1) state
  let state := ((W.drop 40).take 20).foldl (round fround3 0x8F1BBCDC) state
  let state := (W.drop 60).foldl (round fround4 0xCA62C1D6) state
  ⟨sha.A + state.A, sha.B + state.B, sha.C + state.C, sha.D + state.D, sha.E + state.E⟩

end SHA

/-! ### sha256.c and sha512.c -/

namespace SHA2

/-- The registers of both. -/
structure State (w : Nat) where
  A : BitVec w
  B : BitVec w
  C : BitVec w
  D : BitVec w
  E : BitVec w
  F : BitVec w
  G : BitVec w
  H : BitVec w
deriving DecidableEq, Repr

/-- What the two files define in their own way. -/
structure Rounds (w : Nat) where
  sum0 : BitVec w → BitVec w
  sum1 : BitVec w → BitVec w
  rho0 : BitVec w → BitVec w
  rho1 : BitVec w → BitVec w
  K : List (BitVec w)

variable {w : Nat}

def ch (x y z : BitVec w) : BitVec w := (x &&& y) ^^^ (~~~x &&& z)

def maj (x y z : BitVec w) : BitVec w := (x &&& y) ^^^ (x &&& z) ^^^ (y &&& z)

namespace Rounds

variable (rounds : Rounds w)

def expand (W : List (BitVec w)) (t : Nat) : List (BitVec w) :=
  W ++ [rounds.rho1 (W.getD (t - 2) 0) + W.getD (t - 7) 0 + rounds.rho0 (W.getD (t - 15) 0) +
    W.getD (t - 16) 0]

/-- As many words as there are constants. -/
def unpack (block : List ILUInt8) : List (BitVec w) :=
  (List.range' 16 (rounds.K.length - 16)).foldl rounds.expand
    ((List.range 16).map fun t => wordBig w ((block.drop (t * (w / 8))).take (w / 8)))

/-- One round with a constant and a word. -/
def round (state : State w) (kw : BitVec w × BitVec w) : State w :=
  let temp := state.H + rounds.sum1 state.E + ch state.E state.F state.G + kw.1 + kw.2
  let temp2 := rounds.sum0 state.A + maj state.A state.B state.C
  ⟨temp + temp2, state.A, state.B, state.C, state.D + temp, state.E, state.F, state.G⟩

def processBlock (sha : State w) (block : List ILUInt8) : State w :=
  let state := (rounds.K.zip (rounds.unpack block)).foldl rounds.round sha
  ⟨sha.A + state.A, sha.B + state.B, sha.C + state.C, sha.D + state.D, sha.E + state.E,
    sha.F + state.F, sha.G + state.G, sha.H + state.H⟩

end Rounds

end SHA2

namespace SHA256

def K : List ILUInt32 :=
  [0x428a2f98, 0x71374491, 0xb5c0fbcf, 0xe9b5dba5, 0x3956c25b, 0x59f111f1,
   0x923f82a4, 0xab1c5ed5, 0xd807aa98, 0x12835b01, 0x243185be, 0x550c7dc3,
   0x72be5d74, 0x80deb1fe, 0x9bdc06a7, 0xc19bf174, 0xe49b69c1, 0xefbe4786,
   0x0fc19dc6, 0x240ca1cc, 0x2de92c6f, 0x4a7484aa, 0x5cb0a9dc, 0x76f988da,
   0x983e5152, 0xa831c66d, 0xb00327c8, 0xbf597fc7, 0xc6e00bf3, 0xd5a79147,
   0x06ca6351, 0x14292967, 0x27b70a85, 0x2e1b2138, 0x4d2c6dfc, 0x53380d13,
   0x650a7354, 0x766a0abb, 0x81c2c92e, 0x92722c85, 0xa2bfe8a1, 0xa81a664b,
   0xc24b8b70, 0xc76c51a3, 0xd192e819, 0xd6990624, 0xf40e3585, 0x106aa070,
   0x19a4c116, 0x1e376c08, 0x2748774c, 0x34b0bcb5, 0x391c0cb3, 0x4ed8aa4a,
   0x5b9cca4f, 0x682e6ff3, 0x748f82ee, 0x78a5636f, 0x84c87814, 0x8cc70208,
   0x90befffa, 0xa4506ceb, 0xbef9a3f7, 0xc67178f2]

def rounds : SHA2.Rounds 32 where
  sum0 x := rotateRight x 2 ^^^ rotateRight x 13 ^^^ rotateRight x 22
  sum1 x := rotateRight x 6 ^^^ rotateRight x 11 ^^^ rotateRight x 25
  rho0 x := rotateRight x 7 ^^^ rotateRight x 18 ^^^ (x >>> 3)
  rho1 x := rotateRight x 17 ^^^ rotateRight x 19 ^^^ (x >>> 10)
  K := K

def processBlock : SHA2.State 32 → List ILUInt8 → SHA2.State 32 := rounds.processBlock

end SHA256

namespace SHA512

def K : List ILUInt64 :=
  [0x428a2f98d728ae22, 0x7137449123ef65cd, 0xb5c0fbcfec4d3b2f, 0xe9b5dba58189dbbc,
   0x3956c25bf348b538, 0x59f111f1b605d019, 0x923f82a4af194f9b, 0xab1c5ed5da6d8118,
   0xd807aa98a3030242, 0x12835b0145706fbe, 0x243185be4ee4b28c, 0x550c7dc3d5ffb4e2,
   0x72be5d74f27b896f, 0x80deb1fe3b1696b1, 0x9bdc06a725c71235, 0xc19bf174cf692694,
   0xe49b69c19ef14ad2, 0xefbe4786384f25e3, 0x0fc19dc68b8cd5b5, 0x240ca1cc77ac9c65,
   0x2de92c6f592b0275, 0x4a7484aa6ea6e483, 0x5cb0a9dcbd41fbd4, 0x76f988da831153b5,
   0x983e5152ee66dfab, 0xa831c66d2db43210, 0xb00327c898fb213f, 0xbf597fc7beef0ee4,
   0xc6e00bf33da88fc2, 0xd5a79147930aa725, 0x06ca6351e003826f, 0x142929670a0e6e70,
   0x27b70a8546d22ffc, 0x2e1b21385c26c926, 0x4d2c6dfc5ac42aed, 0x53380d139d95b3df,
   0x650a73548baf63de, 0x766a0abb3c77b2a8, 0x81c2c92e47edaee6, 0x92722c851482353b,
   0xa2bfe8a14cf10364, 0xa81a664bbc423001, 0xc24b8b70d0f89791, 0xc76c51a30654be30,
   0xd192e819d6ef5218, 0xd69906245565a910, 0xf40e35855771202a, 0x106aa07032bbd1b8,
   0x19a4c116b8d2d0c8, 0x1e376c085141ab53, 0x2748774cdf8eeb99, 0x34b0bcb5e19b48a8,
   0x391c0cb3c5c95a63, 0x4ed8aa4ae3418acb, 0x5b9cca4f7763e373, 0x682e6ff3d6b2b8a3,
   0x748f82ee5defb2fc, 0x78a5636f43172f60, 0x84c87814a1f0ab72, 0x8cc702081a6439ec,
   0x90befffa23631e28, 0xa4506cebde82bde9, 0xbef9a3f7b2c67915, 0xc67178f2e372532b,
   0xca273eceea26619c, 0xd186b8c721c0c207, 0xeada7dd6cde0eb1e, 0xf57d4f7fee6ed178,
   0x06f067aa72176fba, 0x0a637dc5a2c898a6, 0x113f9804bef90dae, 0x1b710b35131c471b,
   0x28db77f523047d84, 0x32caab7b40c72493, 0x3c9ebe0a15c9bebc, 0x431d67c49c100d4c,
   0x4cc5d4becb3e42b6, 0x597f299cfc657e2a, 0x5fcb6fab3ad6faec, 0x6c44198c4a475817]

def rounds : SHA2.Rounds 64 where
  sum0 x := rotateRight x 28 ^^^ rotateRight x 34 ^^^ rotateRight x 39
  sum1 x := rotateRight x 14 ^^^ rotateRight x 18 ^^^ rotateRight x 41
  rho0 x := rotateRight x 1 ^^^ rotateRight x 8 ^^^ (x >>> 7)
  rho1 x := rotateRight x 19 ^^^ rotateRight x 61 ^^^ (x >>> 6)
  K := K

def processBlock : SHA2.State 64 → List ILUInt8 → SHA2.State 64 := rounds.processBlock

end SHA512

/-! ### ripemd160.c -/

namespace RIPEMD160

structure State where
  A : ILUInt32
  B : ILUInt32
  C : ILUInt32
  D : ILUInt32
  E : ILUInt32
deriving DecidableEq, Repr

def rmF (x y z : ILUInt32) : ILUInt32 := x ^^^ y ^^^ z

def rmG (x y z : ILUInt32) : ILUInt32 := (x &&& y) ||| (~~~x &&& z)

def rmH (x y z : ILUInt32) : ILUInt32 := (x ||| ~~~y) ^^^ z

def rmI (x y z : ILUInt32) : ILUInt32 := (x &&& z) ||| (y &&& ~~~z)

def rmJ (x y z : ILUInt32) : ILUInt32 := x ^^^ (y ||| ~~~z)

/-- `RM_FF` -/
def round1 : List (Nat × Nat) :=
  [(0, 11), (1, 14), (2, 15), (3, 12), (4, 5), (5, 8), (6, 7), (7, 9),
   (8, 11), (9, 13), (10, 14), (11, 15), (12, 6), (13, 7), (14, 9), (15, 8)]

/-- `RM_GG` -/
def round2 : List (Nat × Nat) :=
  [(7, 7), (4, 6), (13, 8), (1, 13), (10, 11), (6, 9), (15, 7), (3, 15),
   (12, 7), (0, 12), (9, 15), (5, 9), (2, 11), (14, 7), (11, 13), (8, 12)]

/-- `RM_HH` -/
def round3 : List (Nat × Nat) :=
  [(3, 11), (10, 13), (14, 6), (4, 7), (9, 14), (15, 9), (8, 13), (1, 15),
   (2, 14), (7, 8), (0, 13), (6, 6), (13, 5), (11, 12), (5, 7), (12, 5)]

/-- `RM_II` -/
def round4 : List (Nat × Nat) :=
  [(1, 11), (9, 12), (11, 14), (10, 15), (0, 14), (8, 15), (12, 9), (4, 8),
   (13, 9), (3, 14), (7, 5), (15, 6), (14, 8), (5, 6), (6, 5), (2, 12)]

/-- `RM_JJ` -/
def round5 : List (Nat × Nat) :=
  [(4, 9), (0, 15), (5, 5), (9, 11), (7, 6), (12, 8), (2, 13), (10, 12),
   (14, 5), (1, 12), (3, 13), (8, 14), (11, 11), (6, 8), (15, 5), (13, 6)]

/-- `RM_JJJ` -/
def parallelRound1 : List (Nat × Nat) :=
  [(5, 8), (14, 9), (7, 9), (0, 11), (9, 13), (2, 15), (11, 15), (4, 5),
   (13, 7), (6, 7), (15, 8), (8, 11), (1, 14), (10, 14), (3, 12), (12, 6)]

/-- `RM_III` -/
def parallelRound2 : List (Nat × Nat) :=
  [(6, 9), (11, 13), (3, 15), (7, 7), (0, 12), (13, 8), (5, 9), (10, 11),
   (14, 7), (15, 7), (8, 12), (12, 7), (4, 6), (9, 15), (1, 13), (2, 11)]

/-- `RM_HHH` -/
def parallelRound3 : List (Nat × Nat) :=
  [(15, 9), (5, 7), (1, 15), (3, 11), (7, 8), (14, 6), (6, 6), (9, 14),
   (11, 12), (8, 13), (12, 5), (2, 14), (10, 13), (0, 13), (4, 7), (13, 5)]

/-- `RM_GGG` -/
def parallelRound4 : List (Nat × Nat) :=
  [(8, 15), (6, 5), (4, 8), (1, 11), (3, 14), (11, 14), (15, 6), (0, 14),
   (5, 6), (12, 9), (2, 12), (13, 9), (9, 12), (7, 5), (10, 15), (14, 8)]

/-- `RM_FFF` -/
def parallelRound5 : List (Nat × Nat) :=
  [(12, 8), (15, 5), (10, 12), (4, 9), (1, 12), (5, 5), (8, 14), (7, 6),
   (6, 8), (2, 13), (13, 6), (14, 5), (0, 15), (3, 13), (9, 11), (11, 11)]

/-- One call, with the registers in the order in which the next call names them. -/
def call (f : ILUInt32 → ILUInt32 → ILUInt32 → ILUInt32) (k : ILUInt32) (W : Nat → ILUInt32)
    (state : State) (row : Nat × Nat) : State where
  A := state.E
  B := rotateLeft (state.A + f state.B state.C state.D + W row.1 + k) row.2 + state.E
  C := state.B
  D := rotateLeft state.C 10
  E := state.D

def line (W : Nat → ILUInt32) (state : State) : State :=
  round5.foldl (call rmJ 0xA953FD4E W) (round4.foldl (call rmI 0x8F1BBCDC W)
    (round3.foldl (call rmH 0x6ED9EBA1 W) (round2.foldl (call rmG 0x5A827999 W)
      (round1.foldl (call rmF 0 W) state))))

def parallelLine (W : Nat → ILUInt32) (state : State) : State :=
  parallelRound5.foldl (call rmF 0 W) (parallelRound4.foldl (call rmG 0x7A6D76E9 W)
    (parallelRound3.foldl (call rmH 0x6D703EF3 W) (parallelRound2.foldl (call rmI 0x5C4DD124 W)
      (parallelRound1.foldl (call rmJ 0x50A28BE6 W) state))))

def processBlock (ripem : State) (block : List ILUInt8) : State :=
  let W t := wordLittle 32 ((block.drop (t * 4)).take 4)
  let left := line W ripem
  let right := parallelLine W ripem
  ⟨right.D + left.C + ripem.B, ripem.C + left.D + right.E, ripem.D + left.E + right.A,
    ripem.E + left.A + right.B, ripem.A + left.B + right.C⟩

end RIPEMD160

end Pnet.Support
