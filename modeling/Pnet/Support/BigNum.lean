import Pnet.CTypes
import Pnet.Lib.Radix

/-! The big numbers of `support/bignum.c`. `words` is the C array cut to `size`,
least significant word first; the loops over word indices are recursions over
the words themselves. Allocation is taken to succeed. -/
namespace Pnet.Support
open Pnet.Lib

/-- Normally positive; `ilBigNumInv` needs negative values on the way. -/
structure ILBigNum where
  neg : Bool
  words : List ILUInt32
deriving DecidableEq, Repr

def maxUInt32 : ILUInt32 := 0xFFFFFFFF

namespace ILBigNum

def size (num : ILBigNum) : Nat := num.words.length

/-- The represented integer. -/
def toInt (num : ILBigNum) : Int :=
  if num.neg then -(Radix.value num.words : Int) else Radix.value num.words

/-- No leading zero word, and zero is not negative. -/
def Normalized (num : ILBigNum) : Prop :=
  Radix.Trimmed num.words ∧ (num.words = [] → num.neg = false)

instance (num : ILBigNum) : Decidable num.Normalized := inferInstanceAs (Decidable (_ ∧ _))

end ILBigNum

/-- Drop the leading zeros; zero can never be negative. -/
def normalizeBigNum (num : ILBigNum) : ILBigNum :=
  let words := Radix.trim num.words
  ⟨if words = [] then false else num.neg, words⟩

def ilBigNumFromInt (num : ILUInt32) : ILBigNum :=
  if num ≠ 0 then ⟨false, [num]⟩ else ⟨false, []⟩

def ilBigNumCopy (num : ILBigNum) : ILBigNum :=
  if num.size = 0 then ilBigNumFromInt 0 else num

def ilBigNumIsZero (num : ILBigNum) : Bool := num.size == 0

/-! ### Comparison -/

/-- Words of two numbers of one size, most significant first. -/
def compareWords : List ILUInt32 → List ILUInt32 → Int
  | x :: xs, y :: ys => if x < y then -1 else if x > y then 1 else compareWords xs ys
  | _, _ => 0

def ilBigNumCompareAbs (numx numy : ILBigNum) : Int :=
  if numx.size < numy.size then -1
  else if numx.size > numy.size then 1
  else compareWords numx.words.reverse numy.words.reverse

def ilBigNumCompare (numx numy : ILBigNum) : Int :=
  if numx.neg && !numy.neg then -1
  else if !numx.neg && numy.neg then 1
  else if numx.neg then -ilBigNumCompareAbs numx numy
  else ilBigNumCompareAbs numx numy

/-! ### Addition and subtraction -/

/-- The rest of the longer number, then a last carry. -/
def carryWords : List ILUInt32 → Bool → List ILUInt32
  | x :: xs, carry =>
    if carry then
      let sum := x + 1
      sum :: carryWords xs (if sum ≠ 0 then false else true)
    else x :: carryWords xs false
  | [], carry => if carry then [1] else []

/-- The loops of `BigNumAdd`: the words both numbers have, then one loop for
what is left of either. -/
def addWords : List ILUInt32 → List ILUInt32 → Bool → List ILUInt32
  | x :: xs, y :: ys, carry =>
    if carry then
      let sum := x + y + 1
      sum :: addWords xs ys (if sum > x then false else true)
    else
      let sum := x + y
      sum :: addWords xs ys (if sum < x then true else false)
  | xs, [], carry => carryWords xs carry
  | [], ys, carry => carryWords ys carry

/-- One pass of the modulus adjustment, subtracting the modulus in place. The
borrow is decided by comparing the new word with the word of the modulus. -/
def subModulusWords : List ILUInt32 → List ILUInt32 → Bool → List ILUInt32
  | s :: ss, m :: ms, carry =>
    if carry then
      let word := s - (m + 1)
      word :: subModulusWords ss ms (if word < m then false else true)
    else
      let word := s - m
      word :: subModulusWords ss ms (if word > m then true else false)
  | s :: ss, [], carry =>
    if carry then
      let word := s - 1
      word :: subModulusWords ss [] (if word ≠ maxUInt32 then false else true)
    else s :: ss
  | [], _, _ => []

/-- `while(ILBigNumCompareAbs(sum, modulus) >= 0)`. Nothing makes the sum
decrease, so the loop is cut off after `fuel` rounds. -/
def reduceByModulus (modulus : ILBigNum) : Nat → ILBigNum → Option ILBigNum
  | 0, _ => none
  | fuel + 1, sum =>
    if ilBigNumCompareAbs sum modulus ≥ 0 then
      reduceByModulus modulus fuel
        (normalizeBigNum { sum with words := subModulusWords sum.words modulus.words false })
    else some sum

/-- Both values have the same sign. `none` is a loop that needs more than `fuel` rounds. -/
def bigNumAdd (fuel : Nat) (numx numy : ILBigNum) (modulus : Option ILBigNum) (resultNeg : Bool) :
    Option ILBigNum :=
  let sum := normalizeBigNum ⟨resultNeg, addWords numx.words numy.words false⟩
  match modulus with
  | some modulus => reduceByModulus modulus fuel sum
  | none => some sum

/-- The two loops of `BigNumSub`, for a subtrahend with no more words. -/
def subWords : List ILUInt32 → List ILUInt32 → Bool → List ILUInt32
  | x :: xs, y :: ys, borrow =>
    if borrow then
      let diff := x - y - 1
      diff :: subWords xs ys (if diff < x then false else true)
    else
      let diff := x - y
      diff :: subWords xs ys (if diff > x then true else false)
  | x :: xs, [], borrow =>
    if borrow then
      let diff := x - 1
      diff :: subWords xs [] (if diff ≠ maxUInt32 then false else true)
    else x :: subWords xs [] false
  | [], _, _ => []

/-- `BigNumSub` without a modulus; the second value is not above the first. -/
def bigNumDiff (numx numy : ILBigNum) (resultNeg : Bool) : ILBigNum :=
  if numx.size = 0 then ilBigNumFromInt 0
  else normalizeBigNum ⟨resultNeg, subWords numx.words numy.words false⟩

def bigNumSub (numx numy : ILBigNum) (modulus : Option ILBigNum) (resultNeg : Bool) : ILBigNum :=
  let diff := bigNumDiff numx numy resultNeg
  match modulus with
  | some modulus => if diff.neg then bigNumDiff modulus diff false else diff
  | none => diff

def ilBigNumAdd (fuel : Nat) (numx numy : ILBigNum) (modulus : Option ILBigNum) :
    Option ILBigNum :=
  if numx.neg = numy.neg then bigNumAdd fuel numx numy modulus numx.neg
  else if numx.neg then
    if ilBigNumCompareAbs numx numy ≥ 0 then some (bigNumSub numx numy modulus true)
    else some (bigNumSub numy numx modulus false)
  else
    if ilBigNumCompareAbs numx numy ≥ 0 then some (bigNumSub numx numy modulus false)
    else some (bigNumSub numy numx modulus true)

def ilBigNumSub (fuel : Nat) (numx numy : ILBigNum) (modulus : Option ILBigNum) :
    Option ILBigNum :=
  if numx.neg && !numy.neg then bigNumAdd fuel numx numy modulus true
  else if !numx.neg && numy.neg then bigNumAdd fuel numx numy modulus false
  else if numx.neg then
    if ilBigNumCompareAbs numx numy ≥ 0 then some (bigNumSub numx numy modulus true)
    else some (bigNumSub numy numx modulus false)
  else
    if ilBigNumCompareAbs numx numy ≥ 0 then some (bigNumSub numx numy modulus false)
    else some (bigNumSub numy numx modulus true)

/-! ### Division -/

/-- Is one word range greater than or equal to another of the same size? -/
def bigRangeGe : List ILUInt32 → List ILUInt32 → Bool
  | words1, words2 => go words1.reverse words2.reverse
where
  go : List ILUInt32 → List ILUInt32 → Bool
    | x :: xs, y :: ys => if x > y then true else if x < y then false else go xs ys
    | _, _ => true

/-- Division by a single word, from the most significant word down. Returns
the quotient words in that order and the remainder. -/
def divSingle (divisor : ILUInt32) : List ILUInt32 → ILUInt64 → List ILUInt32 × ILUInt64
  | [], temp => ([], temp)
  | x :: xs, temp =>
    let temp := (temp <<< 32) ||| x.setWidth 64
    let rest := divSingle divisor xs (temp % divisor.setWidth 64)
    ((temp / divisor.setWidth 64).setWidth 32 :: rest.1, rest.2)

/-- How far the top word must move to set its high bit: the C loop stops at
the first set bit, which a nonzero word has within 32 steps. -/
def topShift (top : ILUInt32) : Nat → Nat → Nat
  | 0, shift => shift
  | steps + 1, shift =>
    if top &&& ((0x80000000 : ILUInt32) >>> shift) = 0 then topShift top steps (shift + 1) else shift

/-- Shift left by `shift` bits; returns the words and what is carried out. -/
def shiftWords (shift : Nat) : List ILUInt32 → ILUInt64 → List ILUInt32 × ILUInt32
  | [], temp => ([], temp.setWidth 32)
  | x :: xs, temp =>
    let temp := temp ||| (x.setWidth 64 <<< shift)
    let rest := shiftWords shift xs (temp >>> 32)
    (temp.setWidth 32 :: rest.1, rest.2)

/-- Shift right by `shift` bits, from the most significant word down. -/
def unshiftWords (shift : Nat) : List ILUInt32 → ILUInt64 → List ILUInt32
  | [], _ => []
  | x :: xs, temp =>
    let temp := (temp <<< 32) ||| x.setWidth 64
    (temp >>> shift).setWidth 32 :: unshiftWords shift xs temp

/-- Underestimate the quotient digit from the two top words of the window. -/
def estimateDigit (topy high next : ILUInt32) : ILUInt32 :=
  if topy = maxUInt32 then high
  else
    let temp : ILUInt64 := (high.setWidth 64 <<< 32) ||| next.setWidth 64
    (temp / (topy + 1).setWidth 64).setWidth 32

/-- Subtract `normy * divtemp` from the window; its last word takes the final
carries. -/
def mulSubWords (divtemp : ILUInt32) :
    List ILUInt32 → List ILUInt32 → ILUInt64 → Bool → List ILUInt32
  | y :: ys, x :: xs, temp, carry =>
    let temp := temp + y.setWidth 64 * divtemp.setWidth 64
    let word1 : ILUInt32 := temp.setWidth 32
    let temp := temp >>> 32
    if carry then
      let word := x - (word1 + 1)
      word :: mulSubWords divtemp ys xs temp (if word < x then false else true)
    else
      let word := x - word1
      word :: mulSubWords divtemp ys xs temp (if word > x then true else false)
  | [], x :: xs, temp, carry => (x - (temp.setWidth 32 + if carry then 1 else 0)) :: xs
  | _, [], _, _ => []

/-- Subtract `normy` once from the window. -/
def subWindow : List ILUInt32 → List ILUInt32 → Bool → List ILUInt32
  | y :: ys, x :: xs, carry =>
    if carry then
      let word := x - (y + 1)
      word :: subWindow ys xs (if word < x then false else true)
    else
      let word := x - y
      word :: subWindow ys xs (if word > x then true else false)
  | [], x :: xs, carry => if carry then (x - 1) :: xs else x :: xs
  | _, [], _ => []

/-- Correct the estimate. Each round takes `normy` off the window, so the
rounds are bounded by the quotient digit; `fuel` is that bound. -/
def correctDigit (normy : List ILUInt32) :
    Nat → ILUInt32 → List ILUInt32 → ILUInt32 × List ILUInt32
  | 0, divtemp, window => (divtemp, window)
  | fuel + 1, divtemp, window =>
    if window.getD normy.length 0 ≠ 0 || bigRangeGe (window.take normy.length) normy then
      correctDigit normy fuel (divtemp + 1) (subWindow normy window false)
    else (divtemp, window)

/-- One quotient digit: the window is the words `j .. j + normy->size` of `normx`. -/
def divDigit (normy window : List ILUInt32) : ILUInt32 × List ILUInt32 :=
  let divtemp := estimateDigit (normy.getLastD 0) (window.getD normy.length 0)
    (window.getD (normy.length - 1) 0)
  correctDigit normy (2 ^ 32) divtemp (mulSubWords divtemp normy window 0 false)

/-- The loop over `j`. `lower` holds the words below the window, most
significant first; the top word of the window is zero after its digit and is
not read again. Returns the quotient words, least significant first, and the
last window without its top word. -/
def divDigits (normy : List ILUInt32) :
    List ILUInt32 → List ILUInt32 → List ILUInt32 × List ILUInt32
  | [], window =>
    let (digit, window) := divDigit normy window
    ([digit], window.dropLast)
  | x :: lower, window =>
    let (digit, window) := divDigit normy window
    let (quotient, remainder) := divDigits normy lower (x :: window.dropLast)
    (quotient ++ [digit], remainder)

/-- Division by a divisor of several words that is not above the dividend:
both are shifted to set the divisor's high bit and the remainder is shifted back. -/
def divLong (numx numy : ILBigNum) : ILBigNum × ILBigNum :=
  let shift := topShift (numy.words.getLastD 0) 32 0
  let (wordsx, carryx) := shiftWords shift numx.words 0
  let (normy, _) := shiftWords shift numy.words 0
  let normx := wordsx ++ [carryx]
  let j := numx.size - numy.size
  let (quotWords, remWords) := divDigits normy (normx.take j).reverse (normx.drop j)
  (normalizeBigNum ⟨false, quotWords⟩,
    normalizeBigNum ⟨false, (unshiftWords shift remWords.reverse 0).reverse⟩)

/-- Returns the quotient and the remainder, or `none` for a zero divisor. A
caller that passes no pointer for one of them just does not use it. -/
def divRem (numx numy : ILBigNum) : Option (ILBigNum × ILBigNum) :=
  match numy.words with
  | [] => none
  | [divisor] =>
    if numx.size = 0 then some (ilBigNumFromInt 0, ilBigNumFromInt 0)
    else
      let (quotWords, temp) := divSingle divisor numx.words.reverse 0
      some (normalizeBigNum ⟨false, quotWords.reverse⟩, ilBigNumFromInt (temp.setWidth 32))
  | _ =>
    if numx.size = 0 then some (ilBigNumFromInt 0, ilBigNumFromInt 0)
    else if ilBigNumCompare numx numy < 0 then some (ilBigNumFromInt 0, ilBigNumCopy numx)
    else some (divLong numx numy)

/-! ### Multiplication, inversion and powers -/

/-- Add `x * numy` into the product words from `xposn` on, then propagate the carry. -/
def mulAddRow (x : ILUInt32) :
    List ILUInt32 → List ILUInt32 → ILUInt64 → List ILUInt32
  | y :: ys, p :: ps, temp =>
    let temp := temp + (x.setWidth 64 * y.setWidth 64 + p.setWidth 64)
    temp.setWidth 32 :: mulAddRow x ys ps (temp >>> 32)
  | [], p :: ps, temp =>
    if temp ≠ 0 then
      let temp := temp + p.setWidth 64
      temp.setWidth 32 :: mulAddRow x [] ps (temp >>> 32)
    else p :: ps
  | _, [], _ => []

/-- One row for each word of `numx`; a row leaves the words before it alone. -/
def mulRows : List ILUInt32 → List ILUInt32 → List ILUInt32 → List ILUInt32
  | [], _, product => product
  | x :: xs, ys, product =>
    match mulAddRow x ys product 0 with
    | [] => []
    | p :: ps => p :: mulRows xs ys ps

def ilBigNumMul (numx numy : ILBigNum) (modulus : Option ILBigNum) : Option ILBigNum :=
  let size := numx.size + numy.size
  if size = 0 then some (ilBigNumFromInt 0)
  else
    let product := normalizeBigNum
      ⟨numx.neg ^^ numy.neg, mulRows numx.words numy.words (List.replicate size 0)⟩
    match modulus with
    | some modulus =>
      if ilBigNumCompare product modulus ≥ 0 then (divRem product modulus).map Prod.snd
      else some product
    | none => some product

def ilBigNumMod (num modulus : ILBigNum) : Option ILBigNum :=
  (divRem num modulus).map Prod.snd

/-- `t = u - v * q` -/
def gcdSubtract (u v q : ILBigNum) : Option ILBigNum := do
  let temp ← ilBigNumMul v q none
  ilBigNumSub 0 u temp none

/-- The loop of the extended Euclid algorithm over `(u1, u2, u3)` and `(v1, v2, v3)`,
run until `v3` is zero. Returns `u1`. -/
def invLoop : Nat → ILBigNum → ILBigNum → ILBigNum → ILBigNum → ILBigNum → ILBigNum →
    Option ILBigNum
  | 0, _, _, _, _, _, _ => none
  | fuel + 1, u1, u2, u3, v1, v2, v3 =>
    if ilBigNumIsZero v3 then some u1
    else do
      let (q, _) ← divRem u3 v3
      let t1 ← gcdSubtract u1 v1 q
      let t2 ← gcdSubtract u2 v2 q
      let t3 ← gcdSubtract u3 v3 q
      invLoop fuel v1 v2 v3 t1 t2 t3

def ilBigNumInv (fuel : Nat) (num modulus : ILBigNum) : Option ILBigNum := do
  let u1 ← invLoop fuel (ilBigNumFromInt 1) (ilBigNumFromInt 0) (ilBigNumCopy num)
    (ilBigNumFromInt 0) (ilBigNumFromInt 1) (ilBigNumCopy modulus)
  if u1.neg then ilBigNumAdd 0 modulus u1 none else some u1

/-- The bits of one exponent word from `mask` up. In the top word the loop stops
above the highest set bit, which keeps `power` from growing for nothing. -/
def powBits (word : ILUInt32) (isTop : Bool) (modulus : Option ILBigNum) :
    Nat → ILUInt32 → ILBigNum → ILBigNum → Option (ILBigNum × ILBigNum)
  | 0, _, result, power => some (result, power)
  | bits + 1, mask, result, power => do
    let result ← if word &&& mask ≠ 0 then ilBigNumMul result power modulus else some result
    if isTop && word &&& (mask - 1) == word then some (result, power)
    else do
      let power ← ilBigNumMul power power modulus
      powBits word isTop modulus bits (mask <<< 1) result power

def powWords (modulus : Option ILBigNum) :
    List ILUInt32 → ILBigNum → ILBigNum → Option ILBigNum
  | [], result, _ => some result
  | word :: words, result, power => do
    let (result, power) ← powBits word words.isEmpty modulus 32 1 result power
    powWords modulus words result power

def ilBigNumPow (fuel : Nat) (numx numy : ILBigNum) (modulus : Option ILBigNum) :
    Option ILBigNum := do
  let result ← powWords modulus numy.words (ilBigNumFromInt 1) (ilBigNumCopy numx)
  match modulus with
  | some modulus => if numy.neg then ilBigNumInv fuel result modulus else some result
  | none => some result

end Pnet.Support
