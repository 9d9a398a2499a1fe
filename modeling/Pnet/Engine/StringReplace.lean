import Pnet.CTypes
import Pnet.Lib.Loop
import Pnet.Lib.Replace

/-! `String.Replace`, `engine/lib_string.c`: one pass counts the characters of the result, and
another one writes them. -/
namespace Pnet.Engine.StringReplace
open Pnet.Lib Replace

/-- A string object; its length is an `ILInt32`. -/
structure SystemString where
  chars : List ILUInt16
  length_lt : chars.length < 2 ^ 31

/-- What is computed in an `ILInt32`. -/
def toILInt32 (n : Int) : Int := n.bmod (2 ^ 32)

/-- Characters outside of a string are compared, or written. -/
inductive Fault where
  | outOfMemory
  | outOfRange
deriving DecidableEq

/-- `EqualRange` with all of the second string. -/
def equalRange (str1 : List ILUInt16) (posn1 : Int) (str2 : List ILUInt16) : Except Fault Bool :=
  if 0 ≤ posn1 ∧ posn1 + str2.length ≤ str1.length then
    .ok ((str1.drop posn1.toNat).take str2.length = str2)
  else .error .outOfRange

/-- The source does not keep the places that it found. -/
structure Count where
  posn : Int
  finalLen : Int
  foundMatch : Bool
  found : List Int

/-- `(IL_MAX_INT32 / 4) - 16` -/
def maxLength : Nat := (2 ^ 31 - 1) / 4 - 16

section Passes

variable (this oldValue newValue : List ILUInt16)

def countStep (s : Count) : Except Fault Count := do
  let equal ← equalRange this s.posn oldValue
  let s : Count :=
    if equal then
      ⟨toILInt32 (s.posn + oldValue.length), toILInt32 (s.finalLen + newValue.length), true,
        s.found ++ [s.posn]⟩
    else ⟨toILInt32 (s.posn + 1), toILInt32 (s.finalLen + 1), s.foundMatch, s.found⟩
  if s.finalLen % 2 ^ 32 > maxLength then .error .outOfMemory else .ok s

def countPass (fuel : Nat) : Option (Except Fault Count) :=
  run (fun s => ¬ toILInt32 (s.posn + oldValue.length) ≤ this.length)
    (countStep this oldValue newValue) fuel ⟨0, 0, false, []⟩

structure Copy where
  posn : Int
  finalLen : Int
  buf : List ILUInt16
  found : List Int

/-- Write over characters of the buffer. -/
def write (buf : List ILUInt16) (posn : Int) (part : List ILUInt16) :
    Except Fault (List ILUInt16) :=
  if 0 ≤ posn ∧ posn + part.length ≤ buf.length then
    .ok (buf.take posn.toNat ++ part ++ buf.drop (posn.toNat + part.length))
  else .error .outOfRange

/-- `(posn + oldLen) <= _this->length && EqualRange(...)` -/
def matchesAt (posn : Int) : Except Fault Bool :=
  if toILInt32 (posn + oldValue.length) ≤ this.length then equalRange this posn oldValue
  else .ok false

def writeNew (buf : List ILUInt16) (posn : Int) : Except Fault (List ILUInt16) :=
  if newValue.length > 0 then write buf posn newValue else .ok buf

def charAt (posn : Int) : Except Fault ILUInt16 :=
  match if 0 ≤ posn then this[posn.toNat]? else none with
  | none => .error .outOfRange
  | some c => .ok c

def copyStep (s : Copy) : Except Fault Copy := do
  let equal ← matchesAt this oldValue s.posn
  if equal then
    let buf ← writeNew newValue s.buf s.finalLen
    pure ⟨toILInt32 (s.posn + oldValue.length), toILInt32 (s.finalLen + newValue.length), buf,
      s.found ++ [s.posn]⟩
  else
    let c ← charAt this s.posn
    let buf ← write s.buf s.finalLen [c]
    pure ⟨toILInt32 (s.posn + 1), toILInt32 (s.finalLen + 1), buf, s.found⟩

def copyPass (fuel : Nat) (buf : List ILUInt16) : Option (Except Fault Copy) :=
  run (fun s => ¬ s.posn < this.length) (copyStep this oldValue newValue) fuel ⟨0, 0, buf, []⟩

end Passes

/-- `AllocString`, which may be out of memory; what is in a new string is arbitrary. -/
structure Allocator where
  allocString : Int → Option (List ILUInt16)
  length : ∀ n buf, allocString n = some buf → (buf.length : Int) = n

/-- What the function returns or throws. -/
inductive Outcome where
  | argNull
  | outOfMemory
  | outOfRange
  | null
  | this
  | string (chars : List ILUInt16)
deriving DecidableEq

def Fault.outcome : Fault → Outcome
  | .outOfMemory => .outOfMemory
  | .outOfRange => .outOfRange

def replaceStringString (alloc : Allocator) (fuel : Nat) (this : SystemString)
    (oldValue newValue : Option SystemString) : Option Outcome :=
  match oldValue with
  | none => some .argNull
  | some oldValue =>
    if oldValue.chars.length = 0 then some .this
    else
      let newChars := newValue.elim [] SystemString.chars
      (countPass this.chars oldValue.chars newChars fuel).bind fun
        | .error fault => some fault.outcome
        | .ok s =>
          if ¬ s.foundMatch then some .this
          else
            match alloc.allocString (toILInt32 (s.finalLen + toILInt32 (this.chars.length - s.posn))) with
            | none => some .null
            | some buf =>
              (copyPass this.chars oldValue.chars newChars fuel buf).map fun
                | .error fault => fault.outcome
                | .ok s => .string s.buf

/-! ### Steps -/

theorem toILInt32_of_lt {n : Int} (hlow : 0 ≤ n) (hhigh : n < 2 ^ 31) : toILInt32 n = n :=
  Int.bmod_eq_of_le (by omega) (by omega)

theorem toILInt32_emod (n : Int) : toILInt32 n % 2 ^ 32 = n % 2 ^ 32 := Int.bmod_emod

section Steps

variable {this oldValue newValue pre rest : List ILUInt16}

theorem equalRange_eq (oldValue : List ILUInt16) (hthis : this = pre ++ rest) (hfits : oldValue.length ≤ rest.length) :
    equalRange this pre.length oldValue = .ok (decide (oldValue <+: rest)) := by
  subst hthis
  have hrange : 0 ≤ (pre.length : Int) ∧ (pre.length : Int) + oldValue.length ≤
      ((pre ++ rest).length : Nat) := by
    rw [List.length_append]
    omega
  rw [equalRange, if_pos hrange, Int.toNat_natCast, List.drop_left]
  exact congrArg Except.ok (decide_eq_decide.mpr (eq_comm.trans List.prefix_iff_eq_take.symm))

/-- What is counted and found behind the first characters of the string. -/
structure Counted (this oldValue newValue rest : List ILUInt16) (posn : Nat) (f : Nat)
    (foundMatch : Bool) (found : List Int) (s : Count) : Prop where
  finalLen : s.finalLen = (f + count oldValue newValue rest : Nat)
  foundMatch : s.foundMatch = (foundMatch || decide (occurrences oldValue posn rest ≠ []))
  found : s.found = found ++ (occurrences oldValue posn rest).map Nat.cast
  left : ∃ p : Nat, s.posn = p ∧ p ≤ this.length ∧ this.length < p + oldValue.length ∧
    count oldValue newValue rest + (this.length - p) = (replaceAll oldValue newValue rest).length

/-- The end of the counting pass from a place of the string. -/
def CountsTo (this oldValue newValue rest : List ILUInt16) (posn f : Nat) (foundMatch : Bool)
    (found : List Int) (result : Except Fault Count) : Prop :=
  if maxLength < f + count oldValue newValue rest then result = .error .outOfMemory
  else ∃ s, result = .ok s ∧ Counted this oldValue newValue rest posn f foundMatch found s

/-- Where no occurrence fits, the counting pass ends. -/
theorem countsTo_short (hthis : this = pre ++ rest)
    (hfit : this.length + oldValue.length < 2 ^ 31) (hshort : rest.length < oldValue.length)
    {f : Nat} (hf : f ≤ maxLength) (foundMatch : Bool) (found : List Int) :
    ∃ result, run (fun s => ¬ toILInt32 (s.posn + oldValue.length) ≤ this.length)
        (countStep this oldValue newValue) 0 ⟨pre.length, f, foundMatch, found⟩ = some result ∧
      CountsTo this oldValue newValue rest pre.length f foundMatch found result := by
  obtain ⟨hoccurrences, hreplace, hcount⟩ := short newValue hshort pre.length
  have hlength : this.length = pre.length + rest.length := by rw [hthis, List.length_append]
  have hdone : ¬ toILInt32 (pre.length + oldValue.length) ≤ this.length := by
    rw [toILInt32_of_lt (by omega) (by omega)]
    omega
  refine ⟨_, by rw [run, decide_eq_true hdone]; exact if_pos rfl, ?_⟩
  rw [CountsTo, hcount, if_neg (by omega)]
  refine ⟨_, rfl, ?_, ?_, ?_, pre.length, rfl, by omega, by omega, ?_⟩
  · rw [hcount]
    rfl
  · rw [hoccurrences]
    simp
  · rw [hoccurrences, List.map_nil, List.append_nil]
  · rw [hcount, hreplace]
    omega

theorem CountsTo.found (hold : oldValue ≠ []) {posn f : Nat} {found : List Int}
    {result : Except Fault Count}
    (h : CountsTo this oldValue newValue rest (posn + oldValue.length) (f + newValue.length) true
      (found ++ [(posn : Int)]) result) (foundMatch : Bool) :
    CountsTo this oldValue newValue (oldValue ++ rest) posn f foundMatch found result := by
  unfold CountsTo at *
  rw [count_append newValue hold, ← Nat.add_assoc]
  split_ifs at h ⊢
  · exact h
  · obtain ⟨s, hs, hcounted⟩ := h
    obtain ⟨p, hposn, hle, hlt, hsum⟩ := hcounted.left
    refine ⟨s, hs, ?_, ?_, ?_, p, hposn, hle, hlt, ?_⟩
    · rw [count_append newValue hold, ← Nat.add_assoc]
      exact hcounted.finalLen
    · rw [hcounted.foundMatch, occurrences_append hold]
      simp
    · rw [hcounted.found, occurrences_append hold, List.map_cons, List.append_assoc]
      rfl
    · rw [count_append newValue hold, replaceAll_append newValue hold, List.length_append, ← hsum,
        Nat.add_assoc]

theorem CountsTo.keep {c : ILUInt16} (hstarts : ¬ oldValue <+: c :: rest)
    (hfits : oldValue.length ≤ (c :: rest).length) {posn f : Nat} {foundMatch : Bool}
    {found : List Int} {result : Except Fault Count}
    (h : CountsTo this oldValue newValue rest (posn + 1) (f + 1) foundMatch found result) :
    CountsTo this oldValue newValue (c :: rest) posn f foundMatch found result := by
  unfold CountsTo at *
  rw [count_cons newValue hstarts hfits, ← Nat.add_assoc]
  split_ifs at h ⊢
  · exact h
  · obtain ⟨s, hs, hcounted⟩ := h
    obtain ⟨p, hposn, hle, hlt, hsum⟩ := hcounted.left
    refine ⟨s, hs, ?_, ?_, ?_, p, hposn, hle, hlt, ?_⟩
    · rw [count_cons newValue hstarts hfits, ← Nat.add_assoc]
      exact hcounted.finalLen
    · rw [hcounted.foundMatch, occurrences_cons hstarts]
    · rw [hcounted.found, occurrences_cons hstarts]
    · rw [count_cons newValue hstarts hfits, replaceAll_cons newValue hstarts, List.length_cons,
        ← hsum]
      omega

/-- The test of the length is right also where the sum has wrapped. -/
theorem finalLen_check {n : Nat} (hn : n < 2 ^ 32) :
    toILInt32 n % 2 ^ 32 > (maxLength : Int) ↔ maxLength < n := by
  rw [toILInt32_emod, Int.emod_eq_of_lt (by omega) (by omega)]
  exact Int.ofNat_lt

theorem countStep_found {posn f : Nat} (hequal : equalRange this posn oldValue = .ok true)
    (hposn : posn + oldValue.length < 2 ^ 31) (hf : f ≤ maxLength)
    (hnew : newValue.length < 2 ^ 31) (foundMatch : Bool) (found : List Int) :
    countStep this oldValue newValue ⟨posn, f, foundMatch, found⟩ =
      if maxLength < f + newValue.length then .error .outOfMemory
      else .ok ⟨(posn + oldValue.length : Nat), (f + newValue.length : Nat), true,
        found ++ [(posn : Int)]⟩ := by
  have hmax : maxLength = 536870895 := rfl
  have hcheck := finalLen_check (n := f + newValue.length) (by omega)
  have hnext : toILInt32 ((posn : Int) + oldValue.length) = (posn + oldValue.length : Nat) :=
    toILInt32_of_lt (by omega) (by omega)
  unfold countStep
  rw [hequal, ok_bind]
  dsimp only
  rw [if_pos (Eq.refl true), hnext, ← Nat.cast_add f newValue.length]
  by_cases hlong : maxLength < f + newValue.length
  · rw [if_pos (hcheck.mpr hlong), if_pos hlong]
  · rw [if_neg (mt hcheck.mp hlong), if_neg hlong, toILInt32_of_lt (by omega) (by omega)]

theorem countStep_keep (newValue : List ILUInt16) {posn f : Nat} (hequal : equalRange this posn oldValue = .ok false)
    (hposn : posn + 1 < 2 ^ 31) (hf : f ≤ maxLength) (foundMatch : Bool) (found : List Int) :
    countStep this oldValue newValue ⟨posn, f, foundMatch, found⟩ =
      if maxLength < f + 1 then .error .outOfMemory
      else .ok ⟨(posn + 1 : Nat), (f + 1 : Nat), foundMatch, found⟩ := by
  have hmax : maxLength = 536870895 := rfl
  have hcheck := finalLen_check (n := f + 1) (by omega)
  have hnext : toILInt32 ((posn : Int) + 1) = (posn + 1 : Nat) :=
    toILInt32_of_lt (by omega) (by omega)
  unfold countStep
  rw [hequal, ok_bind]
  dsimp only
  rw [if_neg Bool.false_ne_true, hnext, ← Nat.cast_succ f]
  by_cases hlong : maxLength < f + 1
  · rw [if_pos (hcheck.mpr hlong), if_pos hlong]
  · rw [if_neg (mt hcheck.mp hlong), if_neg hlong, toILInt32_of_lt (by omega) (by omega)]

/-- A round of the counting pass, where an occurrence fits. -/
theorem countPass_succ (newValue : List ILUInt16) {posn : Int}
    (hgo : toILInt32 (posn + oldValue.length) ≤ this.length) (f : Int) (foundMatch : Bool)
    (found : List Int) (fuel : Nat) :
    run (fun s => ¬ toILInt32 (s.posn + oldValue.length) ≤ this.length)
        (countStep this oldValue newValue) (fuel + 1) ⟨posn, f, foundMatch, found⟩ =
      match countStep this oldValue newValue ⟨posn, f, foundMatch, found⟩ with
      | .ok s => run (fun s => ¬ toILInt32 (s.posn + oldValue.length) ≤ this.length)
          (countStep this oldValue newValue) fuel s
      | .error fault => some (.error fault) := by
  rw [run, decide_eq_false (not_not.mpr hgo), if_neg Bool.false_ne_true]
  cases countStep this oldValue newValue ⟨posn, f, foundMatch, found⟩ <;> rfl

theorem countPass_spec (hold : oldValue ≠ []) (hnew : newValue.length < 2 ^ 31)
    (hfit : this.length + oldValue.length < 2 ^ 31) (hthis : this = pre ++ rest)
    {f : Nat} (hf : f ≤ maxLength) (foundMatch : Bool) (found : List Int) :
    ∃ fuel result, run (fun s => ¬ toILInt32 (s.posn + oldValue.length) ≤ this.length)
        (countStep this oldValue newValue) fuel ⟨pre.length, f, foundMatch, found⟩ = some result ∧
      CountsTo this oldValue newValue rest pre.length f foundMatch found result := by
  have hpos := List.length_pos_iff.mpr hold
  induction rest using scan_induction hold generalizing pre f foundMatch found with
  | nil => exact ⟨0, countsTo_short hthis hfit hpos hf foundMatch found⟩
  | found rest ih =>
    have hlength : this.length = pre.length + (oldValue.length + rest.length) := by
      rw [hthis, List.length_append, List.length_append]
    have hgo : toILInt32 (pre.length + oldValue.length) ≤ this.length := by
      rw [toILInt32_of_lt (by omega) (by omega)]
      omega
    have hequal := equalRange_eq oldValue hthis (by rw [List.length_append]; omega)
    rw [decide_eq_true (List.prefix_append oldValue rest)] at hequal
    have hstep := countStep_found hequal (by omega) hf hnew foundMatch found
    have hloop := countPass_succ newValue hgo f foundMatch found
    split_ifs at hstep with hlong
    · refine ⟨1, .error .outOfMemory, by rw [hloop 0, hstep], ?_⟩
      rw [CountsTo, count_append newValue hold, if_pos (by omega)]
    · have hthis' : this = (pre ++ oldValue) ++ rest := by rw [hthis, List.append_assoc]
      obtain ⟨fuel, result, hrun, hcounts⟩ :=
        ih hthis' (Nat.le_of_not_lt hlong) true (found ++ [(pre.length : Int)])
      rw [List.length_append] at hrun hcounts
      exact ⟨fuel + 1, result, by rw [hloop fuel, hstep]; exact hrun, hcounts.found hold foundMatch⟩
  | keep c rest hstarts ih =>
    by_cases hfits : oldValue.length ≤ (c :: rest).length
    · have hlength : this.length = pre.length + (rest.length + 1) := by
        rw [hthis, List.length_append, List.length_cons]
      have hfits' : oldValue.length ≤ rest.length + 1 := hfits
      have hgo : toILInt32 (pre.length + oldValue.length) ≤ this.length := by
        rw [toILInt32_of_lt (by omega) (by omega)]
        omega
      have hequal := equalRange_eq oldValue hthis hfits
      rw [decide_eq_false hstarts] at hequal
      have hstep := countStep_keep newValue hequal (by omega) hf foundMatch found
      have hloop := countPass_succ newValue hgo f foundMatch found
      split_ifs at hstep with hlong
      · refine ⟨1, .error .outOfMemory, by rw [hloop 0, hstep], ?_⟩
        rw [CountsTo, count_cons newValue hstarts hfits, if_pos (by omega)]
      · have hthis' : this = (pre ++ [c]) ++ rest := by rw [hthis, List.append_assoc]; rfl
        obtain ⟨fuel, result, hrun, hcounts⟩ :=
          ih hthis' (Nat.le_of_not_lt hlong) foundMatch found
        rw [List.length_append, List.length_singleton] at hrun hcounts
        exact ⟨fuel + 1, result, by rw [hloop fuel, hstep]; exact hrun, hcounts.keep hstarts hfits⟩
    · exact ⟨0, countsTo_short hthis hfit (Nat.lt_of_not_le hfits) hf foundMatch found⟩

/-! ### The copying pass -/

/-- Characters are written into the part of the buffer that has not been written yet. -/
theorem write_eq {out gap part : List ILUInt16} (hgap : part.length ≤ gap.length) :
    write (out ++ gap) out.length part = .ok (out ++ part ++ gap.drop part.length) := by
  have hrange : 0 ≤ (out.length : Int) ∧ (out.length : Int) + part.length ≤
      ((out ++ gap).length : Nat) := by
    rw [List.length_append]
    omega
  rw [write, if_pos hrange, Int.toNat_natCast, List.take_left, List.drop_length_add_append]

theorem writeNew_eq {out gap : List ILUInt16} (hgap : newValue.length ≤ gap.length) :
    writeNew newValue (out ++ gap) out.length =
      .ok (out ++ newValue ++ gap.drop newValue.length) := by
  unfold writeNew
  split_ifs with hpos
  · exact write_eq hgap
  · have hnil : newValue = [] := List.length_eq_zero_iff.mp (by omega)
    rw [hnil, List.append_nil]
    rfl

theorem charAt_eq {c : ILUInt16} (hthis : this = pre ++ c :: rest) :
    charAt this pre.length = .ok c := by
  rw [charAt, if_pos (Int.natCast_nonneg _), Int.toNat_natCast, hthis,
    List.getElem?_append_right (Nat.le_refl _), Nat.sub_self]
  rfl

theorem copyStep_found {posn : Nat} (hequal : equalRange this posn oldValue = .ok true)
    (hposn : posn + oldValue.length ≤ this.length) (hlength : this.length < 2 ^ 31)
    {newValue out gap : List ILUInt16} (hgap : newValue.length ≤ gap.length)
    (hbuf : out.length + gap.length < 2 ^ 31) (found : List Int) :
    copyStep this oldValue newValue ⟨posn, out.length, out ++ gap, found⟩ =
      .ok ⟨(posn + oldValue.length : Nat), (out ++ newValue).length,
        out ++ newValue ++ gap.drop newValue.length, found ++ [(posn : Int)]⟩ := by
  have hnext : toILInt32 ((posn : Int) + oldValue.length) = (posn + oldValue.length : Nat) :=
    toILInt32_of_lt (by omega) (by omega)
  have hfinal : toILInt32 ((out.length : Int) + newValue.length) =
      ((out ++ newValue).length : Nat) := by
    rw [toILInt32_of_lt (by omega) (by omega), List.length_append]
    rfl
  have hmatches : matchesAt this oldValue posn = .ok true := by
    rw [matchesAt, hnext, if_pos (Int.ofNat_le.mpr hposn), hequal]
  unfold copyStep
  dsimp only
  rw [hmatches, ok_bind, if_pos (Eq.refl true), writeNew_eq hgap, ok_bind, hnext, hfinal]
  rfl

theorem copyStep_keep {c : ILUInt16} (newValue : List ILUInt16)
    (hthis : this = pre ++ c :: rest) (hstarts : ¬ oldValue <+: c :: rest)
    (hfit : this.length + oldValue.length < 2 ^ 31) {out gap : List ILUInt16}
    (hgap : 1 ≤ gap.length) (hbuf : out.length + gap.length < 2 ^ 31) (found : List Int) :
    copyStep this oldValue newValue ⟨pre.length, out.length, out ++ gap, found⟩ =
      .ok ⟨(pre ++ [c]).length, (out ++ [c]).length, out ++ [c] ++ gap.drop 1, found⟩ := by
  have hlength : this.length = pre.length + (rest.length + 1) := by
    rw [hthis, List.length_append, List.length_cons]
  have hnext : toILInt32 ((pre.length : Int) + oldValue.length) =
      (pre.length + oldValue.length : Nat) := toILInt32_of_lt (by omega) (by omega)
  have hmatches : matchesAt this oldValue pre.length = .ok false := by
    rw [matchesAt, hnext]
    split_ifs with hle
    · have hfits : oldValue.length ≤ (c :: rest).length := by
        rw [List.length_cons]
        omega
      rw [equalRange_eq oldValue hthis hfits, decide_eq_false hstarts]
    · rfl
  have hposn : toILInt32 ((pre.length : Int) + 1) = ((pre ++ [c]).length : Nat) := by
    rw [toILInt32_of_lt (by omega) (by omega), List.length_append]
    rfl
  have hfinal : toILInt32 ((out.length : Int) + 1) = ((out ++ [c]).length : Nat) := by
    rw [toILInt32_of_lt (by omega) (by omega), List.length_append]
    rfl
  have hwrite : write (out ++ gap) out.length [c] = .ok (out ++ [c] ++ gap.drop 1) := write_eq hgap
  unfold copyStep
  dsimp only
  rw [hmatches, ok_bind, if_neg Bool.false_ne_true, charAt_eq hthis, ok_bind, hwrite, ok_bind,
    hposn, hfinal]
  rfl

theorem copyPass_spec (hold : oldValue ≠ [])
    (hfit : this.length + oldValue.length < 2 ^ 31) (hthis : this = pre ++ rest)
    {out gap : List ILUInt16} (hgap : gap.length = (replaceAll oldValue newValue rest).length)
    (hbuf : out.length + gap.length < 2 ^ 31) (found : List Int) :
    ∃ fuel s, run (fun s : Copy => ¬ s.posn < this.length) (copyStep this oldValue newValue) fuel
        ⟨pre.length, out.length, out ++ gap, found⟩ = some (.ok s) ∧
      s.buf = out ++ replaceAll oldValue newValue rest ∧
      s.found = found ++ (occurrences oldValue pre.length rest).map Nat.cast := by
  have hpos := List.length_pos_iff.mpr hold
  induction rest using scan_induction hold generalizing pre out gap found with
  | nil =>
    have hdone : ¬ (pre.length : Int) < this.length := by
      rw [hthis, List.append_nil]
      exact lt_irrefl _
    obtain rfl : gap = [] := List.length_eq_zero_iff.mp hgap
    refine ⟨0, _, by rw [run, decide_eq_true hdone]; exact if_pos rfl, rfl, ?_⟩
    exact (List.append_nil _).symm
  | found rest ih =>
    have hlength : this.length = pre.length + (oldValue.length + rest.length) := by
      rw [hthis, List.length_append, List.length_append]
    rw [replaceAll_append newValue hold, List.length_append] at hgap
    have hgo : (pre.length : Int) < this.length := by omega
    have hequal := equalRange_eq oldValue hthis (by rw [List.length_append]; omega)
    rw [decide_eq_true (List.prefix_append oldValue rest)] at hequal
    have hroom : newValue.length ≤ gap.length := by omega
    have hstep := copyStep_found hequal (by omega) (by omega) hroom hbuf found
    have hthis' : this = (pre ++ oldValue) ++ rest := by rw [hthis, List.append_assoc]
    have hgap' : (gap.drop newValue.length).length = (replaceAll oldValue newValue rest).length := by
      rw [List.length_drop]
      omega
    have hbuf' : (out ++ newValue).length + (gap.drop newValue.length).length < 2 ^ 31 := by
      rw [List.length_append, List.length_drop]
      omega
    obtain ⟨fuel, s, hrun, hout, hfound⟩ := ih hthis' hgap' hbuf' (found ++ [(pre.length : Int)])
    refine ⟨fuel + 1, s, ?_, ?_, ?_⟩
    · rw [run, decide_eq_false (not_not.mpr hgo), if_neg Bool.false_ne_true, hstep]
      rw [List.length_append] at hrun
      exact hrun
    · rw [hout, replaceAll_append newValue hold, List.append_assoc]
    · rw [hfound, occurrences_append hold, List.length_append, List.append_assoc]
      rfl
  | keep c rest hstarts ih =>
    have hlength : this.length = pre.length + (rest.length + 1) := by
      rw [hthis, List.length_append, List.length_cons]
    rw [replaceAll_cons newValue hstarts, List.length_cons] at hgap
    have hgo : (pre.length : Int) < this.length := by omega
    have hroom : 1 ≤ gap.length := by omega
    have hstep := copyStep_keep newValue hthis hstarts hfit hroom hbuf found
    have hthis' : this = (pre ++ [c]) ++ rest := by rw [hthis, List.append_assoc]; rfl
    have hgap' : (gap.drop 1).length = (replaceAll oldValue newValue rest).length := by
      rw [List.length_drop]
      omega
    have hbuf' : (out ++ [c]).length + (gap.drop 1).length < 2 ^ 31 := by
      rw [List.length_append, List.length_drop, List.length_singleton]
      omega
    obtain ⟨fuel, s, hrun, hout, hfound⟩ := ih hthis' hgap' hbuf' found
    refine ⟨fuel + 1, s, ?_, ?_, ?_⟩
    · rw [run, decide_eq_false (not_not.mpr hgo), if_neg Bool.false_ne_true, hstep]
      exact hrun
    · rw [hout, replaceAll_cons newValue hstarts, List.append_assoc]
      rfl
    · rw [hfound, occurrences_cons hstarts, List.length_append]
      rfl

end Steps

/-! ### The whole of it -/

section Whole

variable {this oldValue newValue : List ILUInt16}

theorem countPass_from_start (hold : oldValue ≠ []) (hnew : newValue.length < 2 ^ 31)
    (hfit : this.length + oldValue.length < 2 ^ 31) : ∃ fuel result,
      countPass this oldValue newValue fuel = some result ∧
        CountsTo this oldValue newValue this 0 0 false [] result :=
  countPass_spec hold hnew hfit (List.nil_append this).symm (Nat.zero_le _) false []

theorem copyPass_from_start (hold : oldValue ≠ [])
    (hfit : this.length + oldValue.length < 2 ^ 31) {buf : List ILUInt16}
    (hbuf : buf.length = (replaceAll oldValue newValue this).length) (hshort : buf.length < 2 ^ 31) :
    ∃ fuel s, copyPass this oldValue newValue fuel buf = some (.ok s) ∧
      s.buf = replaceAll oldValue newValue this ∧
      s.found = (occurrences oldValue 0 this).map Nat.cast :=
  by
  have hroom : ([] : List ILUInt16).length + buf.length < 2 ^ 31 := by
    rw [List.length_nil]
    omega
  exact copyPass_spec hold hfit (List.nil_append this).symm hbuf hroom []

end Whole

/-- What the function returns or throws: it is out of memory where it has counted too many
characters, and gives back the string itself where there is nothing to replace. -/
def replaced (alloc : Allocator) (this oldValue newValue : List ILUInt16) : Outcome :=
  if maxLength < count oldValue newValue this then .outOfMemory
  else if occurrences oldValue 0 this = [] then .this
  else
    match alloc.allocString (replaceAll oldValue newValue this).length with
    | none => .null
    | some _ => .string (replaceAll oldValue newValue this)

/-- The characters of the new value, of which there are none if it is null. -/
def newChars (newValue : Option SystemString) : List ILUInt16 := newValue.elim [] SystemString.chars

theorem length_newChars (newValue : Option SystemString) : (newChars newValue).length < 2 ^ 31 := by
  cases newValue with
  | none => exact Nat.two_pow_pos 31
  | some newValue => exact newValue.length_lt

section Result

variable (this oldValue : SystemString) (newValue : Option SystemString)
  (hold : oldValue.chars ≠ []) (hfit : this.chars.length + oldValue.chars.length < 2 ^ 31)
include hold hfit

/-- The counting pass, where it does not count too many characters. -/
theorem counted (hshort : ¬ maxLength < count oldValue.chars (newChars newValue) this.chars) :
    ∃ fuel s, countPass this.chars oldValue.chars (newChars newValue) fuel = some (.ok s) ∧
      s.foundMatch = decide (occurrences oldValue.chars 0 this.chars ≠ []) ∧
      s.found = (occurrences oldValue.chars 0 this.chars).map Nat.cast ∧
      toILInt32 (s.finalLen + toILInt32 (this.chars.length - s.posn)) =
        (replaceAll oldValue.chars (newChars newValue) this.chars).length ∧
      (replaceAll oldValue.chars (newChars newValue) this.chars).length < 2 ^ 31 := by
  have hmax : maxLength = 536870895 := rfl
  obtain ⟨fuel, result, hrun, hcounts⟩ :=
    countPass_from_start hold (length_newChars newValue) hfit
  rw [CountsTo, Nat.zero_add, if_neg hshort] at hcounts
  obtain ⟨s, rfl, hcounted⟩ := hcounts
  obtain ⟨p, hposn, hle, hlt, hsum⟩ := hcounted.left
  have hfinal := hcounted.finalLen
  refine ⟨fuel, s, hrun, hcounted.foundMatch, hcounted.found, ?_, by omega⟩
  have hrest : toILInt32 ((this.chars.length : Int) - s.posn) = (this.chars.length - p : Nat) := by
    rw [hposn, toILInt32_of_lt (by omega) (by omega)]
    omega
  rw [hrest, hfinal, Nat.zero_add, toILInt32_of_lt (by omega) (by omega)]
  omega

theorem replaceStringString_eq (alloc : Allocator) : ∃ enough, ∀ fuel ≥ enough,
    replaceStringString alloc fuel this (some oldValue) newValue =
      some (replaced alloc this.chars oldValue.chars (newChars newValue)) := by
  have hpos : ¬ oldValue.chars.length = 0 := fun h => hold (List.length_eq_zero_iff.mp h)
  unfold replaceStringString replaced
  dsimp only
  rw [← newChars]
  by_cases hlong : maxLength < count oldValue.chars (newChars newValue) this.chars
  · obtain ⟨enough, result, hrun, hcounts⟩ :=
      countPass_from_start hold (length_newChars newValue) hfit
    rw [CountsTo, Nat.zero_add, if_pos hlong] at hcounts
    refine ⟨enough, fun fuel hfuel => ?_⟩
    have hmono := run_mono hrun hfuel
    rw [if_neg hpos, if_pos hlong, countPass, hmono, hcounts]
    rfl
  · obtain ⟨enough, s, hrun, hmatch, _, hlength, hshort⟩ := counted this oldValue newValue hold hfit hlong
    by_cases hnone : occurrences oldValue.chars 0 this.chars = []
    · refine ⟨enough, fun fuel hfuel => ?_⟩
      have hmono := run_mono hrun hfuel
      rw [if_neg hpos, if_neg hlong, if_pos hnone, countPass, hmono, Option.bind_some]
      dsimp only
      rw [hmatch, decide_eq_false (not_not.mpr hnone), if_pos Bool.false_ne_true]
    · cases halloc : alloc.allocString
          (replaceAll oldValue.chars (newChars newValue) this.chars).length with
      | none =>
        refine ⟨enough, fun fuel hfuel => ?_⟩
        have hmono := run_mono hrun hfuel
        rw [if_neg hpos, if_neg hlong, if_neg hnone, countPass, hmono, Option.bind_some]
        dsimp only
        rw [hmatch, decide_eq_true hnone, if_neg (not_not.mpr (Eq.refl true)), hlength, halloc]
      | some buf =>
        have hbuf := Int.ofNat_inj.mp (alloc.length _ _ halloc)
        obtain ⟨enough', copied, hcopy, hout, _⟩ :=
          copyPass_from_start hold hfit hbuf (hbuf ▸ hshort)
        refine ⟨max enough enough', fun fuel hfuel => ?_⟩
        have hmono := run_mono hrun ((Nat.le_max_left _ _).trans hfuel)
        have hmono' := run_mono hcopy ((Nat.le_max_right _ _).trans hfuel)
        rw [if_neg hpos, if_neg hlong, if_neg hnone, countPass, hmono, Option.bind_some]
        dsimp only
        rw [hmatch, decide_eq_true hnone, if_neg (not_not.mpr (Eq.refl true)), hlength, halloc]
        dsimp only
        rw [copyPass, hmono', Option.map_some]
        dsimp only
        rw [hout]

/-- The leftmost occurrences are replaced, if this is not too long. Both passes find them, and the
second one writes over all of the string that was allocated for the first. -/
theorem replaceStringString_spec (alloc : Allocator) :
    (∃ enough, ∀ fuel ≥ enough, replaceStringString alloc fuel this (some oldValue) newValue =
      some (replaced alloc this.chars oldValue.chars (newChars newValue))) ∧
    (¬ maxLength < count oldValue.chars (newChars newValue) this.chars →
      (∃ fuel s, countPass this.chars oldValue.chars (newChars newValue) fuel = some (.ok s) ∧
        s.found = (occurrences oldValue.chars 0 this.chars).map Nat.cast ∧
        toILInt32 (s.finalLen + toILInt32 (this.chars.length - s.posn)) =
          (replaceAll oldValue.chars (newChars newValue) this.chars).length) ∧
      ∀ buf : List ILUInt16,
        buf.length = (replaceAll oldValue.chars (newChars newValue) this.chars).length →
          ∃ fuel s, copyPass this.chars oldValue.chars (newChars newValue) fuel buf =
            some (.ok s) ∧ s.buf = replaceAll oldValue.chars (newChars newValue) this.chars ∧
            s.found = (occurrences oldValue.chars 0 this.chars).map Nat.cast) := by
  refine ⟨replaceStringString_eq this oldValue newValue hold hfit alloc, fun hshort => ?_⟩
  obtain ⟨fuel, s, hrun, _, hfound, hlength, hlt⟩ := counted this oldValue newValue hold hfit hshort
  exact ⟨⟨fuel, s, hrun, hfound, hlength⟩, fun buf hbuf =>
    copyPass_from_start hold hfit hbuf (hbuf ▸ hlt)⟩

end Result

/-- An allocator that clears new strings. -/
def cleared : Allocator where
  allocString n := if 0 ≤ n then some (List.replicate n.toNat 0) else none
  length n buf h := by
    split_ifs at h with hn
    cases h
    rw [List.length_replicate, Int.toNat_of_nonneg hn]

/-- `"aba".Replace("a", null)` -/
theorem replaceStringString_spec_aba : ∃ enough, ∀ fuel ≥ enough,
    replaceStringString cleared fuel ⟨[97, 98, 97], by decide⟩ (some ⟨[97], by decide⟩) none =
      some (.string [98]) :=
  (replaceStringString_spec ⟨[97, 98, 97], by decide⟩ ⟨[97], by decide⟩ none
    (by decide) (by decide) cleared).1

/-- A long new value for the only character of a string. -/
theorem not_replaced : ¬ ∀ (this oldValue newValue : SystemString), oldValue.chars ≠ [] →
    ∀ fuel outcome, replaceStringString cleared fuel this (some oldValue) (some newValue) =
      some outcome →
      outcome = .string (replaceAll oldValue.chars newValue.chars this.chars) ∨
        outcome = .this ∧ replaceAll oldValue.chars newValue.chars this.chars = this.chars := by
  intro h
  have hlong : (List.replicate (2 ^ 29) (98 : ILUInt16)).length < 2 ^ 31 := by
    rw [List.length_replicate]
    exact Nat.pow_lt_pow_right (by decide) (by decide)
  have hcount : maxLength < count [(97 : ILUInt16)] (List.replicate (2 ^ 29) 98) [97] := by
    have happend := count_append (List.replicate (2 ^ 29) (98 : ILUInt16))
      (List.cons_ne_nil (97 : ILUInt16) []) []
    rw [List.append_nil, List.length_replicate] at happend
    have hmax : maxLength < 2 ^ 29 := by decide
    rw [happend]
    exact Nat.lt_add_right _ hmax
  obtain ⟨enough, hruns⟩ := replaceStringString_eq ⟨[97], by decide⟩
    ⟨[97], by decide⟩ (some ⟨_, hlong⟩) (by decide) (by decide) cleared
  have hresult : replaced cleared [97] [97] (List.replicate (2 ^ 29) 98) = .outOfMemory :=
    if_pos hcount
  have hrun := (hruns enough (Nat.le_refl _)).trans (congrArg some hresult)
  rcases h _ _ _ (by decide) _ _ hrun with heq | ⟨heq, _⟩
  · cases heq
  · cases heq

end Pnet.Engine.StringReplace
