import Pnet.CTypes

/-! The decimal numbers of `support/decimal.c`. An array of words is a list, most
significant word first, and a loop over its words a recursion; a pointer that moves past
leading zero words is the rest of the list. A function that can fail gives `none` for it. -/
namespace Pnet.Support

structure ILDecimal where
  flags : ILUInt32
  high : ILUInt32
  middle : ILUInt32
  low : ILUInt32
deriving DecidableEq, Repr

/-- A `roundMode` other than the two named ones rounds down. -/
inductive RoundMode where
  | down
  | halfUp
  | halfEven
deriving DecidableEq, Repr

namespace ILDecimal

def isNeg (value : ILDecimal) : Bool := value.flags &&& 0x80000000 ≠ 0

def getPt (value : ILDecimal) : Nat := ((value.flags >>> 16) &&& 0xFF).toNat

def mkFlags (sign : Bool) (decpt : Nat) : ILUInt32 :=
  (BitVec.ofNat 32 decpt <<< 16) ||| (if sign then 0x80000000 else 0)

def words (value : ILDecimal) : List ILUInt32 := [value.high, value.middle, value.low]

def ofWords (flags : ILUInt32) (words : List ILUInt32) : ILDecimal :=
  ⟨flags, words.getD 0 0, words.getD 1 0, words.getD 2 0⟩

def wordsZero (value : ILDecimal) : Bool := value.high = 0 ∧ value.middle = 0 ∧ value.low = 0

/-! ### Words -/

/-- `DivByTen`, with the remainder of the words before. -/
def divByTenFrom (remainder : ILUInt32) : List ILUInt32 → List ILUInt32 × ILUInt32
  | [] => ([], remainder)
  | word :: words =>
    let product : ILUInt64 := (remainder.setWidth 64 <<< 32) + word.setWidth 64
    let rest := divByTenFrom ((product % 10).setWidth 32) words
    ((product / 10).setWidth 32 :: rest.1, rest.2)

def divByTen (value : List ILUInt32) : List ILUInt32 × ILUInt32 := divByTenFrom 0 value

def stripZeros (value : List ILUInt32) : List ILUInt32 := value.dropWhile (· = 0)

/-- At least three words. -/
def pad (value : List ILUInt32) : List ILUInt32 := List.replicate (3 - value.length) 0 ++ value

/-- The loop that rounds up; `true` is a carry out of the first word. -/
def addOne : List ILUInt32 → List ILUInt32 × Bool
  | [] => ([], true)
  | word :: words =>
    let rest := addOne words
    if rest.2 then ((word + 1) :: rest.1, word + 1 = 0) else (word :: rest.1, false)

def roundsUp (roundMode : RoundMode) (remainder : ILUInt32) (value : List ILUInt32) : Bool :=
  (roundMode = .halfUp ∧ remainder ≥ 5) ∨ (roundMode = .halfEven ∧ remainder > 5) ∨
    (roundMode = .halfEven ∧ remainder = 5 ∧ value.getLastD 0 &&& 1 ≠ 0)

/-- Divide by ten until the words are three or less, or the decimal point is useful. -/
def reduce : Nat → List ILUInt32 → Int → ILUInt32 → List ILUInt32 × Int × ILUInt32
  | 0, value, decpt, remainder => (value, decpt, remainder)
  | fuel + 1, value, decpt, remainder =>
    if (value.length > 3 ∧ decpt > 0) ∨ decpt > 28 then
      reduce fuel (stripZeros (divByTen value).1) (decpt - 1) (divByTen value).2
    else (value, decpt, remainder)

/-- Remove trailing zeroes from the fractional part. -/
def trimFraction : Nat → List ILUInt32 → Int → List ILUInt32 × Int
  | 0, value, decpt => (value, decpt)
  | fuel + 1, value, decpt =>
    if decpt > 0 ∧ value.length > 0 then
      if (divByTen value).2 ≠ 0 then (value, decpt)
      else trimFraction fuel (stripZeros (divByTen value).1) (decpt - 1)
    else (value, decpt)

/-- Round up, and divide by ten again on a carry. -/
def roundWords (value : List ILUInt32) (decpt : Int) : Option (List ILUInt32 × Int) :=
  if (addOne value).2 then
    if decpt ≤ 0 then none
    else some (stripZeros (divByTen (addOne value).1).1, decpt - 1)
  else some ((addOne value).1, decpt)

/-- The end of `Normalize`, on a rounded value: the last three words, and the decimal point. -/
def finish (value : List ILUInt32) (decpt : Int) : Option (List ILUInt32 × Int) :=
  let trimmed := trimFraction decpt.toNat value decpt
  if trimmed.1.length > 3 then none
  else if trimmed.1.length = 0 then some ([0, 0, 0], 0)
  else if trimmed.2 < 0 then none
  else some (pad trimmed.1, trimmed.2)

/-- The loops take no more rounds than the decimal point can move. -/
def normalize (value : List ILUInt32) (decpt : Int) (roundMode : RoundMode) :
    Option (List ILUInt32 × Int) :=
  if (stripZeros value).length = 0 then some ([0, 0, 0], 0)
  else
    let (reduced, decpt, remainder) := reduce decpt.toNat (stripZeros value) decpt 0
    if roundsUp roundMode remainder (pad reduced) then
      (roundWords (pad reduced) decpt).bind fun rounded => finish rounded.1 rounded.2
    else finish (pad reduced) decpt

/-- What the operations make of a normalized value; the sign of zero is always positive. -/
def build (sign : Bool) (normalized : List ILUInt32 × Int) : ILDecimal :=
  let value := ofWords 0 normalized.1
  { value with flags := mkFlags (if value.wordsZero then false else sign) normalized.2.toNat }

def powersOf10 : List ILUInt64 :=
  [10, 100, 1000, 10000, 100000, 1000000, 10000000, 100000000, 1000000000]

/-- Multiply by a word and add a digit; also what is carried out. -/
def mulWords (multiplier digit : ILUInt64) : List ILUInt32 → List ILUInt32 × ILUInt64
  | [] => ([], digit)
  | word :: words =>
    let rest := mulWords multiplier digit words
    let product := rest.2 + word.setWidth 64 * multiplier
    (product.setWidth 32 :: rest.1, product >>> 32)

def mulPowers (digit : ILUInt64) : Nat → List ILUInt32 → Nat → List ILUInt32 × Bool
  | 0, value, _ => (value, false)
  | fuel + 1, value, power =>
    if power > 0 then
      let product := mulWords (powersOf10.getD (min power 9 - 1) 0) digit value
      if product.2 ≠ 0 then (value, true) else mulPowers digit fuel product.1 (power - 9)
    else (value, false)

/-- `true` is a carry out, with which the value is left as far as it was multiplied. -/
def mulByPowOfTen (value : List ILUInt32) (power : Nat) (digit : ILUInt32) :
    List ILUInt32 × Bool :=
  mulPowers (digit.setWidth 64) power value power

/-! ### Comparison, addition and subtraction -/

def load (value : ILDecimal) : List ILUInt32 := [0, 0, 0] ++ value.words

/-- Both values with the decimal points aligned, and where these are. -/
def align (valuea valueb : ILDecimal) : List ILUInt32 × List ILUInt32 × Nat :=
  if valuea.getPt < valueb.getPt then
    ((mulByPowOfTen valuea.load (valueb.getPt - valuea.getPt) 0).1, valueb.load, valueb.getPt)
  else if valuea.getPt > valueb.getPt then
    (valuea.load, (mulByPowOfTen valueb.load (valuea.getPt - valueb.getPt) 0).1, valuea.getPt)
  else (valuea.load, valueb.load, valuea.getPt)

def cmpWords (sign : Bool) : List ILUInt32 → List ILUInt32 → Int
  | x :: xs, y :: ys =>
    if x > y then (if sign then -1 else 1)
    else if x < y then (if sign then 1 else -1)
    else cmpWords sign xs ys
  | _, _ => 0

def cmpAbs (valuea valueb : ILDecimal) (sign : Bool) : Int :=
  cmpWords sign (align valuea valueb).1 (align valuea valueb).2.1

def addWords : List ILUInt32 → List ILUInt32 → List ILUInt32 × Bool
  | x :: xs, y :: ys =>
    let rest := addWords xs ys
    if rest.2 then ((x + (y + 1)) :: rest.1, x + (y + 1) ≤ x)
    else ((x + y) :: rest.1, x + y < x)
  | _, _ => ([], false)

def addValues (valuea valueb : ILDecimal) : List ILUInt32 × Nat :=
  let aligned := align valuea valueb
  ((addWords aligned.1 aligned.2.1).1, aligned.2.2)

def subWords : List ILUInt32 → List ILUInt32 → List ILUInt32 × Bool
  | x :: xs, y :: ys =>
    let rest := subWords xs ys
    if rest.2 then ((x - (y + 1)) :: rest.1, x - (y + 1) ≥ x)
    else ((x - y) :: rest.1, x - y > x)
  | _, _ => ([], false)

def subValues (valuea valueb : ILDecimal) : List ILUInt32 × Nat :=
  let aligned := align valuea valueb
  ((subWords aligned.1 aligned.2.1).1, aligned.2.2)

end ILDecimal

open ILDecimal

def ilDecimalAdd (valuea valueb : ILDecimal) (roundMode : RoundMode) : Option ILDecimal :=
  let (temp, sign) :=
    if !valuea.isNeg && !valueb.isNeg then (addValues valuea valueb, false)
    else if valuea.isNeg && valueb.isNeg then (addValues valuea valueb, true)
    else if valuea.isNeg then
      if cmpAbs valuea valueb false ≥ 0 then (subValues valuea valueb, true)
      else (subValues valueb valuea, false)
    else
      if cmpAbs valuea valueb false ≤ 0 then (subValues valueb valuea, true)
      else (subValues valuea valueb, false)
  (normalize temp.1 temp.2 roundMode).map (build sign)

def ilDecimalSub (valuea valueb : ILDecimal) (roundMode : RoundMode) : Option ILDecimal :=
  let (temp, sign) :=
    if !valuea.isNeg && valueb.isNeg then (addValues valuea valueb, false)
    else if valuea.isNeg && !valueb.isNeg then (addValues valuea valueb, true)
    else if valuea.isNeg then
      if cmpAbs valuea valueb false ≥ 0 then (subValues valuea valueb, true)
      else (subValues valueb valuea, false)
    else
      if cmpAbs valuea valueb false ≤ 0 then (subValues valueb valuea, true)
      else (subValues valuea valueb, false)
  (normalize temp.1 temp.2 roundMode).map (build sign)

/-! ### Multiplication -/

namespace ILDecimal

/-- Propagate the carry; these words are least significant first. -/
def propagate : List ILUInt32 → ILUInt64 → List ILUInt32
  | [], _ => []
  | r :: result, product =>
    if product ≠ 0 then
      (product + r.setWidth 64).setWidth 32 :: propagate result ((product + r.setWidth 64) >>> 32)
    else r :: result

/-- Add a multiple of some words; all are least significant first. -/
def mulAddWords (valueb : ILUInt32) :
    List ILUInt32 → List ILUInt32 → ILUInt64 → List ILUInt32
  | r :: result, a :: valuea, product =>
    let product := product + a.setWidth 64 * valueb.setWidth 64 + r.setWidth 64
    product.setWidth 32 :: mulAddWords valueb result valuea (product >>> 32)
  | result, [], product => propagate result product
  | [], _ :: _, _ => []

def mulByWord (result : List ILUInt32) (base : Nat) (valuea : ILDecimal) (valueb : ILUInt32) :
    List ILUInt32 :=
  (mulAddWords valueb (result.take (base + 1)).reverse valuea.words.reverse 0).reverse ++
    result.drop (base + 1)

def mulValues (valuea valueb : ILDecimal) : List ILUInt32 :=
  mulByWord (mulByWord (mulByWord [0, 0, 0, 0, 0, 0] 5 valuea valueb.low) 4 valuea valueb.middle)
    3 valuea valueb.high

end ILDecimal

def ilDecimalMul (valuea valueb : ILDecimal) (roundMode : RoundMode) : Option ILDecimal :=
  (normalize (mulValues valuea valueb) ((valuea.getPt + valueb.getPt : Nat) : Int) roundMode).map
    (build (valuea.isNeg ^^ valueb.isNeg))

/-! ### Division -/

namespace ILDecimal

/-- Also what is shifted out of the first word. -/
def shiftLeft (shift : Nat) : List ILUInt32 → List ILUInt32 × ILUInt64
  | [] => ([], 0)
  | word :: words =>
    let rest := shiftLeft shift words
    let carry := rest.2 ||| (word.setWidth 64 <<< shift)
    (carry.setWidth 32 :: rest.1, carry >>> 32)

/-- The bits above the first one that is set. -/
def shiftOf : Nat → ILUInt32 → Nat
  | 0, _ => 0
  | fuel + 1, bittest =>
    if bittest &&& 0x80000000 = 0 then shiftOf fuel (bittest <<< 1) + 1 else 0

/-- Subtract a multiple from as many words of `valuea`; also what is borrowed. -/
def mulSubWords (valuec : ILUInt32) :
    List ILUInt32 → List ILUInt32 → List ILUInt32 × ILUInt64
  | a :: valuea, b :: valueb =>
    let rest := mulSubWords valuec valuea valueb
    let carry := rest.2 + b.setWidth 64 * valuec.setWidth 64
    let temp := a - carry.setWidth 32
    (temp :: rest.1, if temp > a then (carry >>> 32) + 1 else carry >>> 32)
  | valuea, _ => (valuea, 0)

/-- `MulAndSub`; `true` is a result that went negative. -/
def mulAndSub (valuea valueb : List ILUInt32) (valuec : ILUInt32) : List ILUInt32 × Bool :=
  match valuea with
  | [] => ([], false)
  | a :: valuea =>
    let rest := mulSubWords valuec valuea valueb
    let temp := a - rest.2.setWidth 32
    (temp :: rest.1, (if temp > a then (rest.2 >>> 32) + 1 else rest.2 >>> 32) ≠ 0)

def addBackWords : List ILUInt32 → List ILUInt32 → List ILUInt32 × ILUInt64
  | a :: valuea, b :: valueb =>
    let rest := addBackWords valuea valueb
    let carry := rest.2 + (a.setWidth 64 + b.setWidth 64)
    (carry.setWidth 32 :: rest.1, carry >>> 32)
  | valuea, _ => (valuea, 0)

/-- `AddBack`; `true` is a carry out of the first word. -/
def addBack (valuea valueb : List ILUInt32) : List ILUInt32 × Bool :=
  match valuea with
  | [] => ([], false)
  | a :: valuea =>
    let rest := addBackWords valuea valueb
    let carry := rest.2 + a.setWidth 64
    (carry.setWidth 32 :: rest.1, carry >>> 32 ≠ 0)

/-- "This loop will iterate for no more than 2 iterations": `none` if it does. -/
def addBackLoop (valueb : List ILUInt32) :
    Nat → List ILUInt32 → ILUInt32 → Bool → Option (List ILUInt32 × ILUInt32)
  | _, valuea, testquot, false => some (valuea, testquot)
  | 0, _, _, true => none
  | fuel + 1, valuea, testquot, true =>
    addBackLoop valueb fuel (addBack valuea valueb).1 (testquot - 1) (addBack valuea valueb).2

def testQuot (tempa tempb : List ILUInt32) : ILUInt32 :=
  let a0 := tempa.headD 0
  let b0 := tempb.headD 0
  if a0 ≥ b0 then 0xFFFFFFFF
  else (((a0.setWidth 64 <<< 32) ||| (tempa.tail.headD 0).setWidth 64) / b0.setWidth 64).setWidth 32

/-- The words of the quotient that are left to find, of a dividend from its next word on. -/
def divideLoop (tempb : List ILUInt32) : Nat → List ILUInt32 → Option (List ILUInt32)
  | 0, _ => some []
  | limit + 1, tempa => do
    let testquot := testQuot tempa tempb
    let subtracted := mulAndSub tempa tempb testquot
    let corrected ← addBackLoop tempb 2 subtracted.1 testquot subtracted.2
    let quotient ← divideLoop tempb limit corrected.1.tail
    some (corrected.2 :: quotient)

/-- The dividend, shifted up by 29 places; a carry out of this goes unnoticed. -/
def dividend (valuea : ILDecimal) : List ILUInt32 := 0 :: (mulByPowOfTen valuea.load 29 0).1

def divide (valuea valueb : ILDecimal) : Option (List ILUInt32) :=
  let tempb := stripZeros valueb.words
  if tempb.length = 0 then none
  else
    let shift := shiftOf 32 (tempb.headD 0)
    let tempa := (shiftLeft shift valuea.dividend).1
    let tempb := (shiftLeft shift tempb).1
    (divideLoop tempb (7 - tempb.length) tempa).map (List.replicate tempb.length 0 ++ ·)

end ILDecimal

def ilDecimalDiv (valuea valueb : ILDecimal) (roundMode : RoundMode) : Option ILDecimal :=
  (divide valuea valueb).bind fun quotient =>
    (normalize quotient ((valuea.getPt : Int) - valueb.getPt + 29) roundMode).map
      (build (valuea.isNeg ^^ valueb.isNeg))

/-! ### Truncation and rounding -/

namespace ILDecimal

def divByTens : Nat → List ILUInt32 → List ILUInt32
  | 0, value => value
  | decpt + 1, value => divByTens decpt (divByTen value).1

end ILDecimal

def ilDecimalTruncate (value : ILDecimal) : ILDecimal :=
  if value.getPt ≠ 0 then
    ofWords (value.flags &&& 0x80000000) (divByTens value.getPt value.words)
  else value

def ilDecimalRem (valuea valueb : ILDecimal) (roundMode : RoundMode) : Option ILDecimal := do
  let quotient ← ilDecimalDiv valuea valueb roundMode
  let product ← ilDecimalMul valueb (ilDecimalTruncate quotient) roundMode
  ilDecimalSub valuea product roundMode

def ilDecimalNeg (value : ILDecimal) : ILDecimal :=
  if value.high ≠ 0 ∨ value.middle ≠ 0 ∨ value.low ≠ 0 then
    { value with flags := value.flags ^^^ 0x80000000 }
  else value

def ilDecimalCmp (valuea valueb : ILDecimal) : Int :=
  if valuea.isNeg && !valueb.isNeg then -1
  else if !valuea.isNeg && valueb.isNeg then 1
  else cmpAbs valuea valueb valuea.isNeg

def ilDecimalIsZero (value : ILDecimal) : Bool := value.wordsZero

/-- The `one` of the source has its 1 in the flags. -/
def ilDecimalFloor (value : ILDecimal) : ILDecimal :=
  if value.isNeg then
    if value.getPt ≠ 0 then
      (ilDecimalSub (ilDecimalTruncate value) ⟨1, 0, 0, 0⟩ .down).getD (ilDecimalTruncate value)
    else value
  else ilDecimalTruncate value

namespace ILDecimal

/-- Keep dividing by ten, `count` times; also the last remainder. -/
def dropDigits : Nat → List ILUInt32 → ILUInt32 → List ILUInt32 × ILUInt32
  | 0, value, remainder => (value, remainder)
  | count + 1, value, _ => dropDigits count (divByTen value).1 (divByTen value).2

/-- Remove trailing zeros after the decimal point. -/
def trimPlaces : Nat → List ILUInt32 → List ILUInt32 × Nat
  | 0, value => (value, 0)
  | decpt + 1, value =>
    if (divByTen value).2 ≠ 0 then (value, decpt + 1) else trimPlaces decpt (divByTen value).1

/-- The value that `ILDecimalRound` returns, of a rounded one. -/
def buildRound (sign : Bool) (value : List ILUInt32) (decpt : Nat) : ILDecimal :=
  let trimmed := trimPlaces decpt value
  let result := ofWords 0 trimmed.1
  { result with flags := if result.wordsZero then 0 else mkFlags sign trimmed.2 }

end ILDecimal

def ilDecimalRound (value : ILDecimal) (places : Int) (roundMode : RoundMode) :
    Option ILDecimal :=
  if places < 0 ∨ (value.getPt : Int) ≤ places then some value
  else
    let dropped := dropDigits (value.getPt - places.toNat) value.words 0
    if roundsUp roundMode dropped.2 dropped.1 then
      if (addOne dropped.1).2 then
        if places ≤ 0 then none
        else
          some (buildRound value.isNeg (divByTen (addOne dropped.1).1).1 (places.toNat - 1))
      else some (buildRound value.isNeg (addOne dropped.1).1 places.toNat)
    else some (buildRound value.isNeg dropped.1 places.toNat)

end Pnet.Support
