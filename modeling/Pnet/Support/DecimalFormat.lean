import Pnet.Support.DecimalCanonical

/-! The text of a decimal. The digits are written one place too far to the right: the place of
the first is never written, and the last is overwritten with what follows. -/
namespace Pnet.Support.ILDecimal
open Pnet.Lib BigEndian

/-- A buffer after some writes. -/
def write (buffer : Int → Char) (writes : List (Int × Char)) : Int → Char :=
  writes.foldl (fun buffer written => Function.update buffer written.1 written.2) buffer

/-- The string of up to `size` characters at a place. -/
def cString (buffer : Int → Char) : Nat → Int → List Char
  | 0, _ => []
  | size + 1, posn =>
    if buffer posn = '\x00' then [] else buffer posn :: cString buffer size (posn + 1)

/-- A decimal comes back from its text, whatever the buffer of 64 characters held before, and
nothing else is written. -/
def RoundTrips (value : ILDecimal) (source : Bool) (roundMode : RoundMode) : Prop :=
  (∀ buffer, ilDecimalParse (cString (write buffer (ilDecimalFormat value source)) 64 0) roundMode =
    some value) ∧
  ∀ written ∈ ilDecimalFormat value source, 0 ≤ written.1 ∧ written.1 < 64

variable {d : ILDecimal} {buffer : Int → Char} {posn : Int}

theorem write_of_not_mem (buffer : Int → Char) {writes : List (Int × Char)}
    (h : ∀ written ∈ writes, written.1 ≠ posn) :
    write buffer writes posn = buffer posn := by
  induction writes generalizing buffer with
  | nil => rfl
  | cons first writes ih =>
    have hrest := ih (Function.update buffer first.1 first.2)
      fun written hwritten => h written (List.mem_cons_of_mem first hwritten)
    exact hrest.trans (Function.update_of_ne (h first List.mem_cons_self).symm _ _)

/-! ### The digits -/

/-- A power of ten with as many words as the comparison looks at. -/
theorem countDigits_cond {temp : List ILUInt32} (hlength : temp.length = 6) (value : ILDecimal)
    (hfits : BigEndian.value temp < 2 ^ 128) :
    (temp.getD 2 0 = 0 ∧ (temp.getD 3 0 < value.high ∨ (temp.getD 3 0 = value.high ∧
      (temp.getD 4 0 < value.middle ∨ (temp.getD 4 0 = value.middle ∧
        temp.getD 5 0 ≤ value.low))))) ↔ BigEndian.value temp ≤ value.mantissa := by
  match temp, hlength with
  | [t0, t1, t2, t3, t4, t5], _ =>
    have h2 := t2.isLt
    have h3 := t3.isLt
    have h4 := t4.isLt
    have h5 := t5.isLt
    have hhigh := value.high.isLt
    have hmiddle := value.middle.isLt
    have hlow := value.low.isLt
    have hzero : (0 : ILUInt32).toNat = 0 := rfl
    unfold mantissa words at *
    simp only [value_cons, value_nil, List.length_cons, List.length_nil, List.getD_cons_succ,
      List.getD_cons_zero, BitVec.lt_def, BitVec.le_def, ← BitVec.toNat_inj, hzero] at *
    norm_num at *
    omega

/-- The loop ends at the first power of ten above the value. -/
theorem countDigits_spec (value : ILDecimal) (fuel n : Nat) (hfuel : n + fuel = 30) (hn : n ≤ 29)
    (temp : List ILUInt32) (hlength : temp.length = 6) (htemp : BigEndian.value temp = 10 ^ n) :
    value.mantissa < 10 ^ (n + countDigits value fuel temp) ∧
      n + countDigits value fuel temp ≤ 29 ∧
      ∀ j, n ≤ j → j < n + countDigits value fuel temp → 10 ^ j ≤ value.mantissa := by
  have hpow : 10 ^ n ≤ 10 ^ 29 := Nat.pow_le_pow_right (by omega) hn
  induction fuel generalizing n temp with
  | zero => omega
  | succ fuel ih =>
    have hcond := countDigits_cond hlength value (by rw [htemp]; exact hpow.trans_lt (by norm_num))
    rw [htemp] at hcond
    rw [countDigits]
    by_cases hle : 10 ^ n ≤ value.mantissa
    · have hlt : 10 ^ n < 10 ^ 29 := hle.trans_lt ((mantissa_lt value).trans (by norm_num))
      have hn' : n < 29 := (Nat.pow_lt_pow_iff_right (by omega)).1 hlt
      have hpow' : 10 ^ (n + 1) ≤ 10 ^ 29 := Nat.pow_le_pow_right (by omega) hn'
      have hzero : (0 : ILUInt32).toNat = 0 := rfl
      have hnext : BigEndian.value (mulByPowOfTen temp 1 0).1 = 10 ^ (n + 1) := by
        rw [value_mulByPowOfTen_digit, htemp, hzero, Nat.add_zero, Nat.pow_succ]
        rw [hlength, htemp, hzero, Nat.add_zero, ← Nat.pow_succ]
        exact hpow'.trans_lt (by norm_num)
      obtain ⟨hless, hbound, hpowers⟩ := ih (n + 1) (by omega) (by omega) _
        ((length_mulByPowOfTen temp 1 0).trans hlength) hnext hpow'
      have hassoc : n + (countDigits value fuel (mulByPowOfTen temp 1 0).1 + 1) =
          n + 1 + countDigits value fuel (mulByPowOfTen temp 1 0).1 := by omega
      rw [if_pos (hcond.2 hle), hassoc]
      refine ⟨hless, hbound, ?_⟩
      intro j hj hlt
      by_cases heq : j = n
      · rwa [heq]
      · exact hpowers j (by omega) hlt
    · rw [if_neg fun h => hle (hcond.1 h)]
      exact ⟨Nat.lt_of_not_le hle, hn, fun j hj hlt => by omega⟩

/-- The number of digits of a value. -/
def numDigits (value : ILDecimal) : Nat := countDigits value 30 [0, 0, 0, 0, 0, 1]

theorem numDigits_spec (value : ILDecimal) : value.numDigits ≤ 29 ∧
    (value.numDigits = 0 ↔ value.mantissa = 0) := by
  obtain ⟨hless, hbound, hpowers⟩ := countDigits_spec value 30 0 rfl (by omega) [0, 0, 0, 0, 0, 1]
    rfl (by decide)
  rw [Nat.zero_add] at hless hbound hpowers
  refine ⟨hbound, ?_⟩
  constructor
  · intro hzero
    unfold numDigits at hzero
    rw [hzero, Nat.pow_zero] at hless
    omega
  · intro hzero
    by_contra hne
    have hone := hpowers 0 (Nat.le_refl 0) (Nat.pos_of_ne_zero hne)
    rw [hzero] at hone
    exact absurd hone (by norm_num)

/-- The digits and their point stand to the right of where they start. -/
theorem formatDigits_bounds (start : Int) (count decpt posn : Nat) (hposn : posn ≤ count)
    (temp : List ILUInt32) (outposn : Int)
    (hout : (posn + if count - posn < decpt then 1 else 0 : Nat) ≤ outposn) :
    ∀ written ∈ (formatDigits start count decpt posn temp outposn).1,
      start < written.1 ∧ written.1 ≤ start + outposn := by
  induction posn generalizing temp outposn with
  | zero => nofun
  | succ posn ih =>
    rw [formatDigits]
    by_cases hpoint : count - posn = decpt
    · rw [if_pos (by omega)] at hout
      rw [if_pos hpoint]
      intro written hwritten
      rcases List.mem_cons.1 hwritten with rfl | hrest
      · dsimp only
        omega
      · rcases List.mem_cons.1 hrest with rfl | hrest
        · dsimp only
          omega
        · have hbounds := ih (by omega) _ (outposn - 2)
            (by rw [if_neg (by omega)]; omega) written hrest
          omega
    · rw [if_neg hpoint]
      intro written hwritten
      rcases List.mem_cons.1 hwritten with rfl | hrest
      · dsimp only
        split at hout <;> omega
      · have hbounds := ih (by omega) _ (outposn - 1)
          (by split at hout <;> split <;> omega) written hrest
        omega

/-! ### Strings in a buffer -/

theorem writeChars_bounds (str : List Char) (posn : Int) :
    ∀ written ∈ writeChars posn str, posn ≤ written.1 ∧ written.1 < posn + str.length := by
  induction str generalizing posn with
  | nil => nofun
  | cons c str ih =>
    intro written hwritten
    rw [List.length_cons]
    rcases List.mem_cons.1 hwritten with rfl | hrest
    · dsimp only
      omega
    · have hbounds := ih (posn + 1) written hrest
      omega

theorem writeChars_append (str rest : List Char) (posn : Int) :
    writeChars posn (str ++ rest) = writeChars posn str ++ writeChars (posn + str.length) rest := by
  induction str generalizing posn with
  | nil =>
    show writeChars posn rest = writeChars (posn + (0 : Nat)) rest
    rw [Int.natCast_zero, Int.add_zero]
  | cons c str ih =>
    have hlength : posn + 1 + (str.length : Int) = posn + ((c :: str).length : Nat) := by
      rw [List.length_cons]
      omega
    show (posn, c) :: writeChars (posn + 1) (str ++ rest) = _
    rw [ih, hlength]
    rfl

/-- A string is read back when its end is the terminator and nothing else is written over it. -/
theorem cString_write (str : List Char) (hstr : ∀ c ∈ str, c ≠ '\x00') (rest : List (Int × Char))
    (hrest : ∀ written ∈ rest, posn + str.length ≤ written.1)
    (hend : write buffer (writeChars posn str ++ rest) (posn + str.length) = '\x00')
    {size : Nat} (hsize : str.length < size) :
    cString (write buffer (writeChars posn str ++ rest)) size posn = str := by
  induction str generalizing buffer posn size with
  | nil =>
    cases size with
    | zero => exact absurd hsize (Nat.not_lt_zero _)
    | succ size =>
      rw [List.length_nil, Int.natCast_zero, Int.add_zero] at hend
      rw [cString, if_pos hend]
  | cons c str ih =>
    cases size with
    | zero => exact absurd hsize (Nat.not_lt_zero _)
    | succ size =>
      have hlength : posn + ((c :: str).length : Nat) = posn + 1 + (str.length : Int) := by
        rw [List.length_cons]
        omega
      rw [hlength] at hrest hend
      have hread : write buffer (writeChars posn (c :: str) ++ rest) posn = c := by
        have hother : ∀ written ∈ writeChars (posn + 1) str ++ rest, written.1 ≠ posn := by
          intro written hwritten
          rcases List.mem_append.1 hwritten with hchars | hafter
          · have hbounds := writeChars_bounds str (posn + 1) written hchars
            omega
          · have hafter' := hrest written hafter
            omega
        exact (write_of_not_mem (Function.update buffer posn c) hother).trans
          (Function.update_self ..)
      rw [cString, hread, if_neg (hstr c List.mem_cons_self)]
      congr 1
      exact ih (fun c' h => hstr c' (List.mem_cons_of_mem c h)) hrest hend
        (Nat.lt_of_succ_lt_succ hsize)

/-! ### The whole text -/

/-- What is written before the digits. -/
def leading (d : ILDecimal) : List Char :=
  (if d.isNeg then ['-'] else []) ++ if d.numDigits ≤ d.getPt then ['0'] else []

theorem length_leading_le (d : ILDecimal) : d.leading.length ≤ 2 := by
  unfold leading
  rw [List.length_append]
  split <;> split <;> simp

/-- Nothing is written between what comes before the digits, and the digits. -/
theorem format_of_nonzero (hd : Canonical d) (hnonzero : d.mantissa ≠ 0) (source : Bool) :
    ∃ rest, ilDecimalFormat d source = writeChars 0 d.leading ++ rest ∧
      ∀ written ∈ rest, (d.leading.length : Int) < written.1 ∧
        written.1 < d.leading.length + 34 := by
  obtain ⟨hbound, hzero⟩ := numDigits_spec d
  have hle := hd.le
  have hcount : d.numDigits ≠ 0 := fun h => hnonzero (hzero.1 h)
  unfold leading
  generalize hsign : (if d.isNeg then ['-'] else []) = sign
  generalize hlead : (if d.numDigits ≤ d.getPt then ['0'] else []) = lead
  have hstart : ((sign ++ lead).length : Int) = sign.length + lead.length := by
    rw [List.length_append]
    omega
  generalize hwidth : (max d.numDigits d.getPt + if d.getPt > 0 then 1 else 0) = width
  have hwide : 0 < width ∧ width ≤ 30 := by
    rw [← hwidth]
    split <;> omega
  generalize hdigits : formatDigits (sign.length + lead.length) (max d.numDigits d.getPt) d.getPt
    (max d.numDigits d.getPt) d.words width = digits
  have hvalue : formatValue sign.length d =
      (writeChars sign.length lead ++ digits.1, (sign.length + lead.length + width : Int),
        digits.2) := by
    rw [← hdigits, ← hwidth, ← hlead]
    exact if_pos hcount
  have hbounds := formatDigits_bounds (sign.length + lead.length) (max d.numDigits d.getPt) d.getPt
    (max d.numDigits d.getPt) (Nat.le_refl _) d.words width (by
      rw [← hwidth, Nat.sub_self])
  rw [hdigits] at hbounds
  refine ⟨digits.1 ++ writeChars (sign.length + lead.length + width)
    ((if source then (if digits.2 then [] else ['.', '0']) ++ ['m'] else []) ++ ['\x00']), ?_, ?_⟩
  · unfold ilDecimalFormat
    rw [hsign, writeChars_append sign lead 0, Int.zero_add]
    dsimp only
    rw [hvalue, List.append_assoc, List.append_assoc, List.append_assoc]
  · intro written hwritten
    rw [hstart]
    rcases List.mem_append.1 hwritten with hdigit | hsuffix
    · have hdigit' := hbounds written hdigit
      omega
    · have hsuffix' := writeChars_bounds _ _ written hsuffix
      have hlength : ((if source then (if digits.2 then [] else ['.', '0']) ++ ['m'] else []) ++
          ['\x00'] : List Char).length ≤ 4 := by
        cases source <;> cases digits.2 <;> decide
      omega

/-- What is read back of a text whose first digit is missing. -/
theorem parse_leading (d : ILDecimal) (roundMode : RoundMode) :
    ilDecimalParse d.leading roundMode = some ⟨0, 0, 0, 0⟩ := by
  unfold leading
  split <;> split <;> rfl

theorem eq_zero_of_mantissa (hd : Canonical d) (hzero : d.mantissa = 0) : d = ⟨0, 0, 0, 0⟩ := by
  have hwords := of_decide_eq_true ((wordsZero_iff d).2 hzero)
  have hflags := hd.zero hzero
  cases d
  rw [ILDecimal.mk.injEq]
  exact ⟨hflags, hwords⟩

/-- Zero is one digit, which is written where it belongs. -/
theorem roundTrips_zero (source : Bool) (roundMode : RoundMode) :
    RoundTrips ⟨0, 0, 0, 0⟩ source roundMode := by
  cases source with
  | false =>
    have hformat : ilDecimalFormat ⟨0, 0, 0, 0⟩ false = writeChars 0 ['0'] ++ [(1, '\x00')] := by
      decide
    constructor
    · intro buffer
      rw [hformat, cString_write ['0'] (by simp) _ (by decide) rfl (by decide)]
      rfl
    · rw [hformat]
      decide
  | true =>
    have hformat : ilDecimalFormat ⟨0, 0, 0, 0⟩ true =
        writeChars 0 ['0', '.', '0', 'm'] ++ [(4, '\x00')] := by decide
    constructor
    · intro buffer
      rw [hformat, cString_write ['0', '.', '0', 'm'] (by simp) _ (by decide) rfl (by decide)]
      rfl
    · rw [hformat]
      decide

/-- Whatever the value, nothing is written outside of the buffer. -/
theorem format_within (hd : Canonical d) (source : Bool) :
    ∀ written ∈ ilDecimalFormat d source, 0 ≤ written.1 ∧ written.1 < 64 := by
  by_cases hzero : d.mantissa = 0
  · rw [eq_zero_of_mantissa hd hzero]
    exact (roundTrips_zero source .down).2
  · obtain ⟨rest, hformat, hbounds⟩ := format_of_nonzero hd hzero source
    have hlength := length_leading_le d
    rw [hformat]
    intro written hwritten
    rcases List.mem_append.1 hwritten with hleading | hrest
    · have hleading' := writeChars_bounds _ _ written hleading
      omega
    · have hrest' := hbounds written hrest
      omega

theorem format_within_seven : Canonical ⟨0, 0, 0, 7⟩ ∧
    ∀ written ∈ ilDecimalFormat ⟨0, 0, 0, 7⟩ true, 0 ≤ written.1 ∧ written.1 < 64 := by
  refine ⟨?hd, format_within ?hd true⟩
  constructor <;> decide

/-- Only zero comes back from its text. -/
theorem ilDecimalFormat_roundTrips_iff (hd : Canonical d) (source : Bool) (roundMode : RoundMode) :
    RoundTrips d source roundMode ↔ d.mantissa = 0 := by
  constructor
  · intro htrip
    by_contra hnonzero
    obtain ⟨rest, hformat, hbounds⟩ := format_of_nonzero hd hnonzero source
    have hlength := length_leading_le d
    have hread := htrip.1 fun _ => '\x00'
    have hchars : ∀ c ∈ d.leading, c ≠ '\x00' := by
      unfold leading
      split <;> split <;> simp
    rw [hformat, cString_write d.leading hchars rest, parse_leading] at hread
    · rw [← Option.some.inj hread] at hnonzero
      exact hnonzero rfl
    · intro written hwritten
      have hbounds' := hbounds written hwritten
      omega
    · apply write_of_not_mem
      intro written hwritten
      rcases List.mem_append.1 hwritten with hleading | hrest
      · have hleading' := writeChars_bounds _ _ written hleading
        omega
      · have hrest' := hbounds written hrest
        omega
    · omega
  · intro hzero
    rw [eq_zero_of_mantissa hd hzero]
    exact roundTrips_zero source roundMode

theorem ilDecimalFormat_roundTrips_zero : RoundTrips ⟨0, 0, 0, 0⟩ true .halfEven :=
  (ilDecimalFormat_roundTrips_iff canonical_zero true .halfEven).2 (by decide)

/-- In a buffer of zeros, the text of 7 is empty. -/
theorem ilDecimalFormat_not_roundTrips : Canonical ⟨0, 0, 0, 7⟩ ∧
    ¬RoundTrips ⟨0, 0, 0, 7⟩ false .halfEven := by
  refine ⟨⟨by decide, by decide, fun h => absurd h (by decide), fun h => absurd h (by decide)⟩, ?_⟩
  intro htrip
  have hread := htrip.1 fun _ => '\x00'
  have hparsed : ilDecimalParse (cString (write (fun _ => '\x00')
      (ilDecimalFormat ⟨0, 0, 0, 7⟩ false)) 64 0) .halfEven = some ⟨0, 0, 0, 0⟩ := by decide
  rw [hparsed] at hread
  exact absurd hread (by decide)

end Pnet.Support.ILDecimal
