import Pnet.Image.DebugRecords
import Pnet.Lib.Climb

/-! What `ILDebugGetLineInfo` finds among the marks that are recorded for a method. A mark is passed
over when its line is not higher than that of the mark before, also when its offset is. -/
namespace Pnet.Image.Debug

open Lib

/-- A mark and the name of its file. -/
abbrev FileMark := List ILUInt8 × Mark

/-! ### Marks in blocks -/

/-- The values that a mark is written as. -/
def LineFormat.values : LineFormat → Mark → List ILUInt32
  | lineCol, mark => [mark.line, mark.column]
  | lineOffsets, mark => [mark.line, mark.offset]
  | lineColOffsets, mark => [mark.line, mark.column, mark.offset]

/-- A mark of the format; what is not written is zero. -/
def LineFormat.Holds : LineFormat → Mark → Prop
  | lineCol, mark => mark.offset = 0
  | lineOffsets, mark => mark.column = 0
  | lineColOffsets, _ => True

section Format

variable {format : LineFormat} {mark : Mark} {bytes : List ILUInt8}

theorem readMark_eq (h : EncodesAll (format.values mark) bytes) (hholds : format.Holds mark)
    (rest : List ILUInt8) : readMark format ⟨bytes ++ rest, false⟩ = (mark, ⟨rest, false⟩) := by
  obtain ⟨line, column, offset⟩ := mark
  cases format with
  | lineCol =>
    obtain rfl : offset = 0 := hholds
    obtain ⟨front, _, rfl, hline, h⟩ := encodesAll_cons.mp h
    obtain ⟨last, _, rfl, hcolumn, h⟩ := encodesAll_cons.mp h
    obtain rfl := encodesAll_nil.mp h
    simp only [readMark, List.append_assoc, hline _, hcolumn _, List.nil_append]
  | lineOffsets =>
    obtain rfl : column = 0 := hholds
    obtain ⟨front, _, rfl, hline, h⟩ := encodesAll_cons.mp h
    obtain ⟨last, _, rfl, hoffset, h⟩ := encodesAll_cons.mp h
    obtain rfl := encodesAll_nil.mp h
    simp only [readMark, List.append_assoc, hline _, hoffset _, List.nil_append]
  | lineColOffsets =>
    obtain ⟨front, _, rfl, hline, h⟩ := encodesAll_cons.mp h
    obtain ⟨middle, _, rfl, hcolumn, h⟩ := encodesAll_cons.mp h
    obtain ⟨last, _, rfl, hoffset, h⟩ := encodesAll_cons.mp h
    obtain rfl := encodesAll_nil.mp h
    simp only [readMark, List.append_assoc, hline _, hcolumn _, hoffset _, List.nil_append]

/-- Bytes that can be read begin with a mark. -/
theorem readMark_or_error (format : LineFormat) (data : List ILUInt8) :
    (readMark format ⟨data, false⟩).2.error = true ∨ ∃ mark bytes rest, data = bytes ++ rest ∧
      EncodesAll (format.values mark) bytes ∧ format.Holds mark := by
  rcases encodes_or_error data with herror | ⟨line, front, data, rfl, hline⟩
  · left
    cases format with
    | lineCol => exact error_of_error herror
    | lineOffsets => exact error_of_error herror
    | lineColOffsets => exact error_of_error (error_of_error herror)
  · rcases encodes_or_error data with herror | ⟨second, middle, data, rfl, hsecond⟩
    · left
      cases format with
      | lineCol => simpa only [readMark, hline _] using herror
      | lineOffsets => simpa only [readMark, hline _] using herror
      | lineColOffsets =>
        simp only [readMark, hline _]
        exact error_of_error herror
    · cases format with
      | lineCol =>
        exact Or.inr ⟨⟨line, second, 0⟩, front ++ (middle ++ []), data,
          by simp, .cons hline (.cons hsecond .nil), rfl⟩
      | lineOffsets =>
        exact Or.inr ⟨⟨line, 0, second⟩, front ++ (middle ++ []), data,
          by simp, .cons hline (.cons hsecond .nil), rfl⟩
      | lineColOffsets =>
        rcases encodes_or_error data with herror | ⟨third, last, data, rfl, hthird⟩
        · left
          simpa only [readMark, hline _, hsecond _] using herror
        · exact Or.inr ⟨⟨line, second, third⟩, front ++ (middle ++ (last ++ [])), data,
            by simp, .cons hline (.cons hsecond (.cons hthird .nil)), trivial⟩

/-- The marks of a block of the format. -/
def LineFormat.items (format : LineFormat) : ItemFormat Mark where
  read := readMark format
  values := format.values
  Holds := format.Holds
  values_ne_nil mark := by cases format <;> exact List.cons_ne_nil _ _
  read_eq := readMark_eq
  read_or_error := readMark_or_error format

theorem markLoop_eq_loop (offset : ILUInt32) (filename : List ILUInt8) (steps : Nat)
    (reader : ILMetaDataRead) (low : Low) : markLoop offset filename format steps reader low =
      format.items.loop (fun low mark => low.update offset filename mark) steps reader low := by
  induction steps generalizing reader low with
  | zero => rfl
  | succ steps ih =>
    rw [markLoop, ItemFormat.loop]
    exact ite_congr rfl (fun _ => rfl) fun _ => ite_congr rfl (fun _ => rfl) fun _ => ih _ _

end Format

/-- What a block records: nothing when it is of another type or names no file. -/
inductive RecordsLines (dbg : ILDebugContext) (block : ILDebugBlock) : List FileMark → Prop
  | other (htype : lineFormat block.type = none) : RecordsLines dbg block []
  | noFile (hfile : (ilMetaUncompressData block.reader).2.error = true ∨
      ilDebugGetString dbg (ilMetaUncompressData block.reader).1 = none) : RecordsLines dbg block []
  | marks {format : LineFormat} {file : ILUInt32} {filename front data : List ILUInt8}
      {marks : List Mark} (htype : lineFormat block.type = some format)
      (hbytes : block.reader.data = front ++ data) (hfile : Encodes file front)
      (hstring : ilDebugGetString dbg file = some filename)
      (hmarks : format.items.Records marks data) :
      RecordsLines dbg block (marks.map fun mark => (filename, mark))

theorem lineBlock_eq {dbg : ILDebugContext} {block : ILDebugBlock} {marks : List FileMark}
    (h : RecordsLines dbg block marks) (offset : ILUInt32) (low : Low) :
    lineBlock dbg offset low block =
      marks.foldl (fun low mark => low.update offset mark.1 mark.2) low := by
  rw [lineBlock]
  cases h with
  | other htype =>
    rw [htype]
    rfl
  | noFile hfile =>
    cases hformat : lineFormat block.type with
    | none => rfl
    | some format =>
      dsimp only
      rcases hfile with herror | hnone
      · cases ilDebugGetString dbg (ilMetaUncompressData block.reader).1 with
        | none => rfl
        | some filename => exact if_pos herror
      · rw [hnone]
        rfl
  | marks htype hbytes hfile hstring hmarks =>
    rename_i format file filename front data marks
    have hreader : block.reader = ⟨front ++ data, false⟩ := by
      rw [← hbytes]
      rfl
    rw [htype, hreader]
    simp only [hfile data, hstring]
    rw [List.foldl_map]
    rw [markLoop_eq_loop]
    exact ItemFormat.loop_eq hmarks _ le_rfl low

/-- The marks that the section records for a token, in the order of its blocks. -/
def RecordedLines (dbg : ILDebugContext) (token : ILToken) (marks : List FileMark) : Prop :=
  RecordedItems (RecordsLines dbg) dbg token marks

/-- What the marks leave in the end. -/
def scanMarks (offset : ILUInt32) (marks : List FileMark) : Low :=
  marks.foldl (fun low mark => low.update offset mark.1 mark.2) {}

theorem ilDebugGetLineInfo_eq {dbg : ILDebugContext} {token : ILToken} {marks : List FileMark}
    (h : RecordedLines dbg token marks) (offset : ILUInt32) :
    ilDebugGetLineInfo dbg token offset = .ok ((scanMarks offset marks).filename,
      (scanMarks offset marks).line, (scanMarks offset marks).column) := by
  rw [ilDebugGetLineInfo, RecordedItems.forToken_eq h fun hblock => lineBlock_eq hblock offset]
  rfl

/-! ### The best mark -/

/-- The marks at or below an offset. -/
def marksBelow (offset : ILUInt32) (marks : List FileMark) : List FileMark :=
  marks.filter fun mark => mark.2.offset ≤ offset

/-- A mark with the greatest offset not above the one asked for, and of those at that offset one
with the highest line. -/
structure BestMark (offset : ILUInt32) (marks : List FileMark) (best : FileMark) : Prop where
  mem : best ∈ marks
  le : best.2.offset ≤ offset
  offset_le : ∀ mark ∈ marks, mark.2.offset ≤ offset → mark.2.offset ≤ best.2.offset
  line_le : ∀ mark ∈ marks, mark.2.offset = best.2.offset → mark.2.line ≤ best.2.line

/-- What is returned of a mark. -/
def FileMark.place (mark : FileMark) : List ILUInt8 × ILUInt32 × ILUInt32 :=
  (cString mark.1, mark.2.line, mark.2.column)

/-- The file, line and column of a best mark, or no file when there is no mark. -/
def FoundLine (offset : ILUInt32) (marks : List FileMark)
    (result : Option (List ILUInt8) × ILUInt32 × ILUInt32) : Prop :=
  match result.1 with
  | none => ∀ mark ∈ marks, ¬ mark.2.offset ≤ offset
  | some filename => ∃ best, BestMark offset marks best ∧ best.place = (cString filename, result.2)

abbrev offsetOf (mark : FileMark) : Nat := mark.2.offset.toNat

abbrev lineOf (mark : FileMark) : Nat := mark.2.line.toNat

/-- The marks at or below the offset whose offset is not lower, and whose line is higher, than those
of each such mark before them. -/
def leadingMarks (offset : ILUInt32) (marks : List FileMark) : List FileMark :=
  Climb.leading offsetOf lineOf (marksBelow offset marks)

/-- The mark has a lower line than the best ones, or the file, line and column of one. -/
def HarmlessMark (offset : ILUInt32) (marks : List FileMark) (mark : FileMark) : Prop :=
  (∀ best, BestMark offset marks best → mark.2.line < best.2.line) ∨
    ∃ best, BestMark offset marks best ∧ best.place = mark.place

section Scan

variable {offset : ILUInt32} {marks : List FileMark}

theorem mem_marksBelow {mark : FileMark} :
    mark ∈ marksBelow offset marks ↔ mark ∈ marks ∧ mark.2.offset ≤ offset := by
  simp [marksBelow]

theorem bestMark_iff {best : FileMark} : BestMark offset marks best ↔
    Climb.Best offsetOf lineOf (marksBelow offset marks) best := by
  constructor
  · rintro ⟨hmem, hle, hoffset, hline⟩
    refine ⟨mem_marksBelow.mpr ⟨hmem, hle⟩, ?_, ?_⟩
    · intro mark hmark
      obtain ⟨hmark, hbelow⟩ := mem_marksBelow.mp hmark
      exact hoffset mark hmark hbelow
    · intro mark hmark heq
      exact hline mark (mem_marksBelow.mp hmark).1 (BitVec.eq_of_toNat_eq heq)
  · rintro ⟨hmem, hoffset, hline⟩
    obtain ⟨hmem, hle⟩ := mem_marksBelow.mp hmem
    refine ⟨hmem, hle, ?_, ?_⟩
    · intro mark hmark hbelow
      exact hoffset mark (mem_marksBelow.mpr ⟨hmark, hbelow⟩)
    · intro mark hmark heq
      have hbelow : mark.2.offset ≤ offset := by
        rw [heq]
        exact hle
      exact hline mark (mem_marksBelow.mpr ⟨hmark, hbelow⟩) (congrArg BitVec.toNat heq)

theorem lineOf_eq_of_place {mark mark' : FileMark} (h : mark.place = mark'.place) :
    lineOf mark = lineOf mark' :=
  congrArg (fun place => place.2.1.toNat) h

theorem harmlessMark_iff {mark : FileMark} : HarmlessMark offset marks mark ↔
    Climb.Harmless offsetOf lineOf FileMark.place (marksBelow offset marks) mark := by
  simp only [HarmlessMark, Climb.Harmless, bestMark_iff]
  rfl

/-- The best mark so far, as the loop keeps it. -/
def Low.ofMark : Option FileMark → Low
  | none => {}
  | some mark => ⟨some mark.1, mark.2.offset, mark.2.line, mark.2.column⟩

theorem update_none (mark : FileMark) : (Low.ofMark none).update offset mark.1 mark.2 =
    Low.ofMark (if mark.2.offset ≤ offset then some mark else none) := by
  have hzero : (0 : ILUInt32) ≤ mark.2.offset := BitVec.le_def.mpr (Nat.zero_le _)
  simp only [Low.ofMark, Low.update]
  by_cases hbelow : mark.2.offset ≤ offset
  · rw [if_pos ⟨hbelow, hzero⟩, if_pos (Or.inl trivial), if_pos hbelow]
  · rw [if_neg fun hboth => hbelow hboth.1, if_neg hbelow]

theorem update_some (old mark : FileMark) : (Low.ofMark (some old)).update offset mark.1 mark.2 =
    Low.ofMark (if mark.2.offset ≤ offset ∧ Climb.Up offsetOf lineOf old mark then some mark
      else some old) := by
  have hheld : Low.ofMark (some old) =
    ⟨some old.1, old.2.offset, old.2.line, old.2.column⟩ := rfl
  rw [hheld, Low.update]
  by_cases hoffset : mark.2.offset ≤ offset ∧ old.2.offset ≤ mark.2.offset
  · rw [if_pos hoffset]
    by_cases hline : old.2.line < mark.2.line
    · rw [if_pos (Or.inr hline), if_pos ⟨hoffset.1, hoffset.2, hline⟩]
      rfl
    · rw [if_neg (not_or.mpr ⟨nofun, hline⟩), if_neg fun hup => hline hup.2.2]
      rfl
  · rw [if_neg hoffset, if_neg fun hup => hoffset ⟨hup.1, hup.2.1⟩]
    rfl

theorem update_ofMark (held : Option FileMark) (mark : FileMark) :
    (Low.ofMark held).update offset mark.1 mark.2 = Low.ofMark
      (if mark.2.offset ≤ offset then Climb.climb offsetOf lineOf held mark else held) := by
  cases held with
  | none => exact update_none mark
  | some old =>
    rw [update_some, Climb.climb, ite_and]

theorem marksBelow_cons (mark : FileMark) : marksBelow offset (mark :: marks) =
    if mark.2.offset ≤ offset then mark :: marksBelow offset marks
    else marksBelow offset marks := by
  by_cases hbelow : mark.2.offset ≤ offset
  · rw [if_pos hbelow]
    exact List.filter_cons_of_pos (decide_eq_true hbelow)
  · rw [if_neg hbelow]
    exact List.filter_cons_of_neg (by simpa using hbelow)

theorem scanMarks_eq : scanMarks offset marks =
    Low.ofMark ((marksBelow offset marks).foldl (Climb.climb offsetOf lineOf) none) := by
  have hfold : ∀ held, marks.foldl (fun low mark => low.update offset mark.1 mark.2)
      (Low.ofMark held) =
      Low.ofMark ((marksBelow offset marks).foldl (Climb.climb offsetOf lineOf) held) := by
    induction marks with
    | nil => exact fun _ => rfl
    | cons mark marks ih =>
      intro held
      rw [List.foldl_cons, update_ofMark, ih, marksBelow_cons]
      split_ifs
      · rfl
      · rfl
  exact hfold none

theorem foundLine_scanMarks_iff (offset : ILUInt32) (marks : List FileMark) :
    FoundLine offset marks ((scanMarks offset marks).filename, (scanMarks offset marks).line,
        (scanMarks offset marks).column) ↔
      (marksBelow offset marks = [] ∨
        Climb.Finds offsetOf lineOf FileMark.place (marksBelow offset marks)) := by
  rw [scanMarks_eq, Climb.Finds, Climb.foldl_climb]
  cases hlast : (Climb.leading offsetOf lineOf (marksBelow offset marks)).getLast? with
  | none =>
    have hnil : marksBelow offset marks = [] := by
      by_contra hne
      exact Climb.leading_ne_nil hne (List.getLast?_eq_none_iff.mp hlast)
    constructor
    · exact fun _ => Or.inl hnil
    · intro _ mark hmark hbelow
      have hmem := mem_marksBelow.mpr ⟨hmark, hbelow⟩
      rw [hnil] at hmem
      cases hmem
  | some last =>
    have hmem : last ∈ marksBelow offset marks :=
      Climb.mem_of_mem_leading (List.mem_of_getLast? hlast)
    constructor
    · rintro ⟨best, hbest, hplace⟩
      exact Or.inr ⟨last, rfl, best, bestMark_iff.mp hbest, hplace⟩
    · rintro (hnil | ⟨last', hlast', best, hbest, hplace⟩)
      · rw [hnil] at hmem
        cases hmem
      · cases hlast'
        exact ⟨best, bestMark_iff.mpr hbest, hplace⟩

end Scan

/-- The look-up is right exactly when no leading mark keeps the best ones from being taken. -/
theorem ilDebugGetLineInfo_iff {dbg : ILDebugContext} {token : ILToken} {marks : List FileMark}
    (h : RecordedLines dbg token marks) (offset : ILUInt32) :
    (∃ result, ilDebugGetLineInfo dbg token offset = .ok result ∧ FoundLine offset marks result) ↔
      ∀ mark ∈ leadingMarks offset marks, HarmlessMark offset marks mark := by
  have hiff := foundLine_scanMarks_iff offset marks
  rw [ilDebugGetLineInfo_eq h]
  simp only [Except.ok.injEq, exists_eq_left', hiff, leadingMarks, harmlessMark_iff]
  by_cases hnil : marksBelow offset marks = []
  · rw [hnil]
    simp [Climb.leading]
  · rw [Climb.finds_iff lineOf_eq_of_place hnil]
    simp [hnil]

/-- A section with one block: line 10 of a file from offset 0 on, and line 5 from offset 8 on. -/
def lineBack : ILDebugContext :=
  ⟨[0x49, 0x4C, 0x44, 0x42, 1, 0, 0, 0, 24, 0, 0, 0, 1, 0, 0, 0, 32, 0, 0, 0, 2, 0, 0, 0,
    1, 0, 0, 6, 34, 0, 0, 0, 0x61, 0, 2, 5, 0, 10, 0, 5, 8], 24, 1, 32, 2⟩

/-- The file is the string at the start of the table. -/
def lineBackFile : List ILUInt8 := lineBack.bytes.drop 32

theorem ilDebugCreate_lineBack : ilDebugCreate lineBack.bytes = .ok lineBack := by decide

theorem recordedLines_lineBack : RecordedLines lineBack 0x06000001
    [(lineBackFile, ⟨10, 0, 0⟩), (lineBackFile, ⟨5, 0, 8⟩)] := by
  have hblock : RecordsLines lineBack ⟨2, 5, [0, 10, 0, 5, 8]⟩
      ([⟨10, 0, 0⟩, ⟨5, 0, 8⟩].map fun mark => (lineBackFile, mark)) := by
    apply RecordsLines.marks (show lineFormat 2 = some .lineOffsets from rfl)
      (show _ = [0] ++ [10, 0, 5, 8] from rfl) (encodes_ilMetaCompressData 0) rfl
    refine ⟨⟨[10, 0, 5, 8], [], rfl, encodesAll_flatMap [10, 0, 5, 8], rfl⟩, ?_⟩
    exact List.forall_mem_cons.mpr ⟨rfl, List.forall_mem_cons.mpr ⟨rfl, nofun⟩⟩
  refine ⟨[⟨2, 5, [0, 10, 0, 5, 8]⟩], [_], ?_, .cons hblock .nil, rfl⟩
  refine ⟨⟨0, 1⟩, by decide, ?_⟩
  refine @Yields.next _ _ ⟨1, 1⟩ _ _ ?_ (.done ?_)
  · decide
  · decide

theorem ilDebugGetLineInfo_iff_lineBack :
    (∃ result, ilDebugGetLineInfo lineBack 0x06000001 10 = .ok result ∧
      FoundLine 10 [(lineBackFile, ⟨10, 0, 0⟩), (lineBackFile, ⟨5, 0, 8⟩)] result) ↔
    ∀ mark ∈ leadingMarks 10 [(lineBackFile, ⟨10, 0, 0⟩), (lineBackFile, ⟨5, 0, 8⟩)],
      HarmlessMark 10 [(lineBackFile, ⟨10, 0, 0⟩), (lineBackFile, ⟨5, 0, 8⟩)] mark :=
  ilDebugGetLineInfo_iff recordedLines_lineBack 10

/-- The line before is still found at the offset of the second mark and behind it. -/
theorem not_foundLine_lineBack : ¬ ∀ (bytes : List ILUInt8) (dbg : ILDebugContext)
    (token : ILToken) (marks : List FileMark) (offset : ILUInt32),
    ilDebugCreate bytes = .ok dbg → RecordedLines dbg token marks →
      ∃ result, ilDebugGetLineInfo dbg token offset = .ok result ∧
        FoundLine offset marks result := by
  intro h
  obtain ⟨result, hresult, hfound⟩ :=
    h _ _ _ _ 10 ilDebugCreate_lineBack recordedLines_lineBack
  rw [show ilDebugGetLineInfo lineBack 0x06000001 10 = .ok (some lineBackFile, 10, 0) by
    decide] at hresult
  cases hresult
  obtain ⟨best, ⟨hmem, -, hoffset, -⟩, hplace⟩ := hfound
  have hline : best.2.line = 10 := congrArg (fun place => place.2.1) hplace
  have hlast := hoffset (lineBackFile, ⟨5, 0, 8⟩) (by simp) (by decide)
  rcases List.mem_pair.mp hmem with rfl | rfl
  · exact absurd hlast (by decide)
  · exact absurd hline (by decide)

end Pnet.Image.Debug
