import Pnet.Support.Decimal

/-! Parsing and formatting of the decimals of `support/decimal.c`. A string is the list of its
characters, whose end is the terminator. What is formatted is the list of the characters that
are written, each with its place in the buffer, in the order of the writes. -/
namespace Pnet.Support
namespace ILDecimal

def isSpace (c : Char) : Bool :=
  c = ' ' ∨ c = '\t' ∨ c = '\r' ∨ c = '\n' ∨ c = '\x0c' ∨ c = '\x0b' ∨ c = '\x1a'

def isDigit (c : Char) : Bool := c ≥ '0' ∧ c ≤ '9'

def digitOf (c : Char) : Nat := c.toNat - '0'.toNat

def appendDigit (temp : List ILUInt32) (c : Char) : List ILUInt32 :=
  (mulByPowOfTen temp 1 (BitVec.ofNat 32 (digitOf c))).1

/-- The part before the decimal point, and how many digits it has; more than 30 are too many. -/
def parseIntegral : List Char → List ILUInt32 → Nat → Bool →
    Option (List Char × List ILUInt32 × Nat)
  | [], temp, totalDigits, _ => some ([], temp, totalDigits)
  | c :: str, temp, totalDigits, sawLeading =>
    if isDigit c then
      if sawLeading ∨ c ≠ '0' then
        if totalDigits + 1 > 30 then none
        else parseIntegral str (appendDigit temp c) (totalDigits + 1) true
      else parseIntegral str temp totalDigits sawLeading
    else some (c :: str, temp, totalDigits)

/-- Round the remainder of the fractional part. -/
def roundFraction (roundMode : RoundMode) (str : List Char) (temp : List ILUInt32) :
    List Char × List ILUInt32 :=
  match str with
  | [] => ([], temp)
  | c :: str =>
    if isDigit c then
      (str.dropWhile isDigit,
        if roundsUp roundMode (BitVec.ofNat 32 (digitOf c)) temp then (addOne temp).1 else temp)
    else (c :: str, temp)

/-- The part after the decimal point, and how many places it has. -/
def parseFraction (roundMode : RoundMode) :
    List Char → List ILUInt32 → Nat → Nat → List Char × List ILUInt32 × Nat
  | [], temp, _, decimalPlaces => ([], temp, decimalPlaces)
  | c :: str, temp, totalDigits, decimalPlaces =>
    if isDigit c then
      if totalDigits + 1 > 30 then
        let rounded := roundFraction roundMode str (appendDigit temp c)
        (rounded.1, rounded.2, decimalPlaces + 1)
      else parseFraction roundMode str (appendDigit temp c) (totalDigits + 1) (decimalPlaces + 1)
    else (c :: str, temp, decimalPlaces)

def parseSign : List Char → Bool × List Char
  | [] => (false, [])
  | c :: str => if c = '-' then (true, str) else if c = '+' then (false, str) else (false, c :: str)

def exponentDigits : List Char → Nat → Nat
  | [], exponent => exponent
  | c :: str, exponent =>
    if isDigit c ∧ exponent < 1000 then exponentDigits str (exponent * 10 + digitOf c) else exponent

def parseExponent : List Char → Int
  | [] => 0
  | c :: str =>
    if c = 'e' ∨ c = 'E' then
      let (negexp, str) := parseSign str
      if negexp then -(exponentDigits str 0 : Int) else exponentDigits str 0
    else 0

/-- Multiply a value that has its decimal point to the right of its digits. -/
def scaleUp (temp : List ILUInt32) (decimalPlaces : Int) : Option (List ILUInt32 × Int) :=
  if decimalPlaces < 0 then
    if decimalPlaces < -29 then none
    else
      let product := mulByPowOfTen temp (-decimalPlaces).toNat 0
      if product.2 then none else some (product.1, 0)
  else some (temp, decimalPlaces)

/-- The value of the digits that were read, with the exponent that may follow. -/
def parseValue (sign : Bool) (str : List Char) (temp : List ILUInt32) (decimalPlaces : Nat)
    (roundMode : RoundMode) : Option ILDecimal :=
  if temp.all (· = 0) then some ⟨0, 0, 0, 0⟩
  else
    (scaleUp temp (decimalPlaces - parseExponent str)).bind fun scaled =>
      (normalize scaled.1 scaled.2 roundMode).map (build sign)

end ILDecimal

open ILDecimal

def ilDecimalParse (str : List Char) (roundMode : RoundMode) : Option ILDecimal :=
  let signed := parseSign (str.dropWhile isSpace)
  (parseIntegral signed.2 [0, 0, 0, 0, 0, 0] 0 false).bind fun integral =>
    match integral.1 with
    | '.' :: str =>
      let fraction := parseFraction roundMode str integral.2.1 integral.2.2 0
      parseValue signed.1 fraction.1 fraction.2.1 fraction.2.2 roundMode
    | str => parseValue signed.1 str integral.2.1 0 roundMode

namespace ILDecimal

/-- The number of digits of a value, from a power of ten up. -/
def countDigits (value : ILDecimal) : Nat → List ILUInt32 → Nat
  | 0, _ => 0
  | fuel + 1, temp =>
    if temp.getD 2 0 = 0 ∧ (temp.getD 3 0 < value.high ∨ (temp.getD 3 0 = value.high ∧
        (temp.getD 4 0 < value.middle ∨ (temp.getD 4 0 = value.middle ∧
          temp.getD 5 0 ≤ value.low)))) then
      countDigits value fuel (mulByPowOfTen temp 1 0).1 + 1
    else 0

/-- The digits below `posn`, from the right, and whether they have the decimal point. -/
def formatDigits (buffer : Int) (numDigits decpt : Nat) :
    Nat → List ILUInt32 → Int → List (Int × Char) × Bool
  | 0, _, _ => ([], false)
  | posn + 1, temp, outposn =>
    let digit := (buffer + outposn, Char.ofNat ('0'.toNat + (divByTen temp).2.toNat))
    if numDigits - posn = decpt then
      let rest := formatDigits buffer numDigits decpt posn (divByTen temp).1 (outposn - 2)
      (digit :: (buffer + (outposn - 1), '.') :: rest.1, true)
    else
      let rest := formatDigits buffer numDigits decpt posn (divByTen temp).1 (outposn - 1)
      (digit :: rest.1, rest.2)

/-- Characters one after the other. -/
def writeChars (buffer : Int) : List Char → List (Int × Char)
  | [] => []
  | c :: str => (buffer, c) :: writeChars (buffer + 1) str

/-- The digits of a value, where the buffer goes on, and whether there is a decimal point. -/
def formatValue (buffer : Int) (value : ILDecimal) : List (Int × Char) × Int × Bool :=
  let numDigits := countDigits value 30 [0, 0, 0, 0, 0, 1]
  let decpt := value.getPt
  if numDigits ≠ 0 then
    let leading := if numDigits ≤ decpt then ['0'] else []
    let start := buffer + leading.length
    let numDigits := max numDigits decpt
    let width := numDigits + if decpt > 0 then 1 else 0
    let digits := formatDigits start numDigits decpt numDigits value.words width
    (writeChars buffer leading ++ digits.1, start + width, digits.2)
  else ([(buffer, '0')], buffer + 1, false)

end ILDecimal

/-- The buffer starts at 0. -/
def ilDecimalFormat (value : ILDecimal) (source : Bool) : List (Int × Char) :=
  let sign := if value.isNeg then ['-'] else []
  let (digits, buffer, wroteDec) := formatValue sign.length value
  let suffix := if source then (if wroteDec then [] else ['.', '0']) ++ ['m'] else []
  writeChars 0 sign ++ digits ++ writeChars buffer (suffix ++ ['\x00'])

end Pnet.Support
