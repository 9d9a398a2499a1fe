import Pnet.Image.DebugRecords
import Pnet.Lib.Narrow

/-! What `ILDebugGetVarName` finds among the variables that are recorded for a method. A scope that
the offset is not in still takes the place of the scope around it, so that no other one is found. -/
namespace Pnet.Image.Debug

open Lib

/-! ### Variables in blocks -/

/-- A variable, its name as the offset of a string, and where it is in scope. -/
structure VarEntry where
  scope : Scope
  name : ILUInt32
  index : ILUInt32
deriving DecidableEq, Repr

def readVar (reader : ILMetaDataRead) : (ILUInt32 × ILUInt32) × ILMetaDataRead :=
  let (tempName, reader) := ilMetaUncompressData reader
  let (tempIndex, reader) := ilMetaUncompressData reader
  ((tempName, tempIndex), reader)

theorem readVar_eq {var : ILUInt32 × ILUInt32} {bytes : List ILUInt8}
    (h : EncodesAll [var.1, var.2] bytes) (rest : List ILUInt8) :
    readVar ⟨bytes ++ rest, false⟩ = (var, ⟨rest, false⟩) := by
  obtain ⟨front, _, rfl, hname, h⟩ := encodesAll_cons.mp h
  obtain ⟨last, _, rfl, hindex, h⟩ := encodesAll_cons.mp h
  obtain rfl := encodesAll_nil.mp h
  simp only [readVar, List.append_assoc, hname _, hindex _, List.nil_append]

theorem readVar_or_error (data : List ILUInt8) : (readVar ⟨data, false⟩).2.error = true ∨
    ∃ var bytes rest, data = bytes ++ rest ∧
      EncodesAll [(var : ILUInt32 × ILUInt32).1, var.2] bytes ∧ True := by
  rcases encodes_or_error data with herror | ⟨name, front, data, rfl, hname⟩
  · exact Or.inl (error_of_error herror)
  · rcases encodes_or_error data with herror | ⟨index, last, rest, rfl, hindex⟩
    · left
      simpa only [readVar, hname _] using herror
    · exact Or.inr ⟨(name, index), front ++ (last ++ []), rest, by simp,
        .cons hname (.cons hindex .nil), trivial⟩

/-- The variables of a block, with their names and indexes. -/
def varItems : ItemFormat (ILUInt32 × ILUInt32) where
  read := readVar
  values var := [var.1, var.2]
  Holds _ := True
  values_ne_nil _ := List.cons_ne_nil _ _
  read_eq h _ rest := readVar_eq h rest
  read_or_error := readVar_or_error

/-- What a block records: nothing when it is of another type or ends in its scope. A scope that
ends before it starts is empty. -/
inductive RecordsVars (block : ILDebugBlock) : List VarEntry → Prop
  | other (htype : block.type ≠ debugTypeVars ∧ block.type ≠ debugTypeVarsOffsets) :
      RecordsVars block []
  | noScope (htype : block.type = debugTypeVarsOffsets)
      (hread : (readVar block.reader).2.error = true) : RecordsVars block []
  | vars {vars : List (ILUInt32 × ILUInt32)} (htype : block.type = debugTypeVars)
      (hvars : varItems.Records vars block.reader.data) :
      RecordsVars block (vars.map fun var => ⟨{}, var.1, var.2⟩)
  | varsOffsets {start stop : ILUInt32} {front data : List ILUInt8}
      {vars : List (ILUInt32 × ILUInt32)} (htype : block.type = debugTypeVarsOffsets)
      (hbytes : block.reader.data = front ++ data) (hscope : EncodesAll [start, stop] front)
      (hvars : varItems.Records vars data) :
      RecordsVars block (vars.map fun var =>
        ⟨⟨start, if stop < start then start else stop⟩, var.1, var.2⟩)

section Loop

variable {dbg : ILDebugContext} {offset varNum : ILUInt32}

/-- The body of the loop over the variables of a block. -/
def onVar (dbg : ILDebugContext) (offset varNum : ILUInt32) (state : VarState) (entry : VarEntry) :
    VarState :=
  if entry.index = varNum then state.update dbg offset entry.scope entry.name else state

theorem varLoop_succ (scope : Scope) (steps : Nat) (reader : ILMetaDataRead) (state : VarState) :
    varLoop dbg offset varNum scope (steps + 1) reader state =
      if reader.data = [] then state
      else if (readVar reader).2.error then state
      else varLoop dbg offset varNum scope steps (readVar reader).2
        (onVar dbg offset varNum state ⟨scope, (readVar reader).1.1, (readVar reader).1.2⟩) := by
  have hstep : varLoop dbg offset varNum scope (steps + 1) reader state =
      if reader.data = [] then state
      else if (readVar reader).2.error then state
      else if (readVar reader).1.2 ≠ varNum then
        varLoop dbg offset varNum scope steps (readVar reader).2 state
      else varLoop dbg offset varNum scope steps (readVar reader).2
        (state.update dbg offset scope (readVar reader).1.1) := rfl
  rw [hstep, onVar]
  by_cases hindex : (readVar reader).1.2 = varNum
  · rw [if_neg (not_not.mpr hindex), if_pos hindex]
  · rw [if_pos hindex, if_neg hindex]

theorem varLoop_eq_loop (scope : Scope) (steps : Nat) (reader : ILMetaDataRead)
    (state : VarState) : varLoop dbg offset varNum scope steps reader state =
      varItems.loop (fun state var => onVar dbg offset varNum state ⟨scope, var.1, var.2⟩) steps
        reader state := by
  induction steps generalizing reader state with
  | zero => rfl
  | succ steps ih =>
    rw [varLoop_succ, ih, ItemFormat.loop, varItems]

theorem varBlock_eq {block : ILDebugBlock} {entries : List VarEntry} (h : RecordsVars block entries)
    (state : VarState) : varBlock dbg offset varNum state block =
      entries.foldl (onVar dbg offset varNum) state := by
  rw [varBlock]
  cases h with
  | other htype => exact if_pos htype
  | noScope htype hread =>
    rw [if_neg fun hother => hother.2 htype, readScope, if_pos htype]
    simp only [readVar] at hread
    simp only [hread, if_true]
    rfl
  | vars htype hvars =>
    rw [if_neg fun hother => hother.1 htype, readScope, if_neg (by rw [htype]; decide)]
    simp only [varLoop_eq_loop]
    rw [List.foldl_map]
    exact ItemFormat.loop_eq hvars _ le_rfl state
  | varsOffsets htype hbytes hscope hvars =>
    rename_i start stop front data vars
    have hreader : block.reader = ⟨front ++ data, false⟩ := by
      rw [← hbytes]
      rfl
    have hread := @readVar_eq (start, stop) _ hscope data
    simp only [readVar, Prod.mk.injEq] at hread
    rw [if_neg fun hother => hother.2 htype, readScope, if_pos htype, hreader]
    simp only [hread, varLoop_eq_loop]
    rw [List.foldl_map]
    exact ItemFormat.loop_eq hvars _ le_rfl state

end Loop

/-- The variables that the section records for a token, in the order of its blocks. -/
def RecordedVars (dbg : ILDebugContext) (token : ILToken) (entries : List VarEntry) : Prop :=
  RecordedItems RecordsVars dbg token entries

/-! ### The innermost scope -/

namespace VarEntry

abbrev startOf (entry : VarEntry) : Nat := entry.scope.start.toNat

abbrev stopOf (entry : VarEntry) : Nat := entry.scope.stop.toNat

/-- The offset is in the scope of the entry. -/
abbrev Covers (offset : ILUInt32) (entry : VarEntry) : Prop :=
  Narrow.Covers startOf stopOf offset.toNat entry

abbrev Innermost (offset : ILUInt32) (entries : List VarEntry) (entry : VarEntry) : Prop :=
  Narrow.Innermost startOf stopOf offset.toNat entries entry

def string (dbg : ILDebugContext) (entry : VarEntry) : Option (List ILUInt8) :=
  ilDebugGetString dbg entry.name

end VarEntry

open VarEntry (startOf stopOf)

/-- The entries that name the variable. -/
def named (varNum : ILUInt32) (entries : List VarEntry) : List VarEntry :=
  entries.filter fun entry => entry.index = varNum

/-- The name in an innermost scope around the offset, or nothing when there is no such scope. -/
def FoundName (dbg : ILDebugContext) (offset : ILUInt32) (entries : List VarEntry)
    (result : Option (List ILUInt8)) : Prop :=
  (∀ entry ∈ entries, ¬ entry.Covers offset) ∧ result = none ∨
    ∃ best, VarEntry.Innermost offset entries best ∧
      (best.string dbg).map cString = result.map cString

/-- The entries before the first one that the offset is not in and that lies inside all the entries
before it that the offset is in. -/
def clearEntries (offset : ILUInt32) (entries : List VarEntry) : List VarEntry :=
  Narrow.clear startOf stopOf offset.toNat [] entries

/-- The latest innermost one of the clear entries names what an innermost one of all names. -/
def ClearName (dbg : ILDebugContext) (offset : ILUInt32) (entries : List VarEntry) : Prop :=
  ∃ best latest, VarEntry.Innermost offset entries best ∧
    Narrow.Gives startOf stopOf offset.toNat (clearEntries offset entries) latest ∧
    (best.string dbg).map cString = (latest.bind (VarEntry.string dbg)).map cString

section Scan

variable {dbg : ILDebugContext} {offset varNum : ILUInt32} {entries : List VarEntry}

/-- What the loop keeps, by the entries that it comes from. -/
def VarState.ofNarrow (dbg : ILDebugContext) (state : Narrow.State VarEntry) : VarState where
  name := state.found.bind (VarEntry.string dbg)
  scope := (state.current.map VarEntry.scope).getD {}

theorem contains_eq (entry : VarEntry) :
    entry.scope.contains offset = decide (entry.Covers offset) := by
  rw [Scope.contains]
  exact (Bool.decide_and _ _).symm

theorem Scope.stop_le (scope : Scope) : scope.stop ≤ ({} : Scope).stop := by
  have hstop : ({} : Scope).stop = BitVec.allOnes 32 := by decide
  rw [hstop]
  bv_omega

theorem inside_ofNarrow_iff (state : Narrow.State VarEntry) (entry : VarEntry) :
    ((VarState.ofNarrow dbg state).scope.start ≤ entry.scope.start ∧
      entry.scope.stop ≤ (VarState.ofNarrow dbg state).scope.stop) ↔
    ∀ outer ∈ state.current, Narrow.Inside startOf stopOf entry outer := by
  obtain ⟨found, current⟩ := state
  cases current with
  | none =>
    constructor
    · exact fun _ => nofun
    · exact fun _ => ⟨BitVec.le_def.mpr (Nat.zero_le _), entry.scope.stop_le⟩
  | some outer =>
    constructor
    · rintro hinside other ⟨⟩
      exact hinside
    · intro hinside
      exact hinside outer rfl

theorem update_ofNarrow (state : Narrow.State VarEntry) (entry : VarEntry) :
    (VarState.ofNarrow dbg state).update dbg offset entry.scope entry.name =
      VarState.ofNarrow dbg (Narrow.narrow startOf stopOf offset.toNat state entry) := by
  rw [VarState.update, Narrow.narrow]
  by_cases hinside : ∀ outer ∈ state.current, Narrow.Inside startOf stopOf entry outer
  · rw [if_pos ((inside_ofNarrow_iff state entry).mpr hinside), if_pos hinside, contains_eq]
    by_cases hcovers : entry.Covers offset
    · rw [if_pos (decide_eq_true hcovers), if_pos hcovers]
      rfl
    · rw [if_neg (by simpa using hcovers), if_neg hcovers]
      rfl
  · rw [if_neg (mt (inside_ofNarrow_iff state entry).mp hinside), if_neg hinside]

theorem named_cons (entry : VarEntry) : named varNum (entry :: entries) =
    if entry.index = varNum then entry :: named varNum entries else named varNum entries := by
  by_cases hindex : entry.index = varNum
  · rw [if_pos hindex]
    exact List.filter_cons_of_pos (decide_eq_true hindex)
  · rw [if_neg hindex]
    exact List.filter_cons_of_neg (by simpa using hindex)

theorem foldl_onVar (entries : List VarEntry) (state : Narrow.State VarEntry) :
    entries.foldl (onVar dbg offset varNum) (VarState.ofNarrow dbg state) =
      VarState.ofNarrow dbg
        ((named varNum entries).foldl (Narrow.narrow startOf stopOf offset.toNat) state) := by
  induction entries generalizing state with
  | nil => rfl
  | cons entry entries ih =>
    rw [List.foldl_cons, onVar]
    by_cases hindex : entry.index = varNum
    · rw [if_pos hindex, update_ofNarrow, ih, named_cons, if_pos hindex, List.foldl_cons]
    · rw [if_neg hindex, ih, named_cons, if_neg hindex]

/-- The entry that the loop takes the name of. -/
def foundEntry (offset : ILUInt32) (entries : List VarEntry) : Option VarEntry :=
  (entries.foldl (Narrow.narrow startOf stopOf offset.toNat) {}).found

theorem ilDebugGetVarName_eq {token : ILToken} (h : RecordedVars dbg token entries)
    (offset varNum : ILUInt32) : ilDebugGetVarName dbg token offset varNum =
      .ok ((foundEntry offset (named varNum entries)).bind (VarEntry.string dbg)) := by
  rw [ilDebugGetVarName, RecordedItems.forToken_eq h fun hblock => varBlock_eq hblock, ok_bind]
  exact congrArg (fun state : VarState => Except.ok state.name) (foldl_onVar entries {})

theorem foundName_iff (hforest : Narrow.Forest startOf stopOf entries) :
    FoundName dbg offset entries ((foundEntry offset entries).bind (VarEntry.string dbg)) ↔
      (∀ entry ∈ entries, ¬ entry.Covers offset) ∨ ClearName dbg offset entries := by
  have hgives := @Narrow.gives_foldl _ startOf stopOf offset.toNat _ hforest
  constructor
  · rintro (⟨hnone, -⟩ | ⟨best, hbest, hname⟩)
    · exact Or.inl hnone
    · exact Or.inr ⟨best, _, hbest, hgives, hname⟩
  · rintro (hnone | ⟨best, latest, hbest, hlatest, hname⟩)
    · left
      refine ⟨hnone, ?_⟩
      cases hfound : foundEntry offset entries with
      | none => rfl
      | some found =>
        rw [foundEntry] at hfound
        rw [hfound] at hgives
        have hlatest : Narrow.Latest startOf stopOf offset.toNat (clearEntries offset entries)
          found := hgives
        have hmem := Narrow.mem_of_mem_clear hlatest.innermost.mem
        exact absurd hlatest.innermost.covers (hnone found hmem)
    · right
      refine ⟨best, hbest, ?_⟩
      rw [hname, foundEntry, hgives.eq hlatest]

end Scan

/-- The look-up is right exactly when no entry is around the offset or the clear ones give the name
of an innermost one. -/
theorem ilDebugGetVarName_iff {dbg : ILDebugContext} {token : ILToken} {entries : List VarEntry}
    (h : RecordedVars dbg token entries) (offset varNum : ILUInt32)
    (hforest : Narrow.Forest startOf stopOf entries) :
    (∃ result, ilDebugGetVarName dbg token offset varNum = .ok result ∧
      FoundName dbg offset (named varNum entries) result) ↔
      (∀ entry ∈ named varNum entries, ¬ entry.Covers offset) ∨
        ClearName dbg offset (named varNum entries) := by
  rw [ilDebugGetVarName_eq h]
  simp only [Except.ok.injEq, exists_eq_left']
  exact foundName_iff (hforest.subset (List.filter_subset_self _))

/-- A section with two blocks: variable 0 is `b` from offset 8 to 16, and `a` from 0 to 4. -/
def siblings : ILDebugContext :=
  ⟨[0x49, 0x4C, 0x44, 0x42, 1, 0, 0, 0, 24, 0, 0, 0, 2, 0, 0, 0, 40, 0, 0, 0, 4, 0, 0, 0,
    1, 0, 0, 6, 44, 0, 0, 0, 1, 0, 0, 6, 50, 0, 0, 0, 0x61, 0, 0x62, 0,
    5, 4, 8, 16, 2, 0, 5, 4, 0, 4, 0, 0], 24, 2, 40, 4⟩

def siblingEntries : List VarEntry := [⟨⟨8, 16⟩, 2, 0⟩, ⟨⟨0, 4⟩, 0, 0⟩]

theorem ilDebugCreate_siblings : ilDebugCreate siblings.bytes = .ok siblings := by decide

theorem recordsVars_one {block : ILDebugBlock} (start stop name index : ILUInt32)
    (htype : block.type = debugTypeVarsOffsets)
    (hdata : block.reader.data = [start, stop].flatMap ilMetaCompressData ++
      [name, index].flatMap ilMetaCompressData) :
    RecordsVars block [⟨⟨start, if stop < start then start else stop⟩, name, index⟩] := by
  refine @RecordsVars.varsOffsets _ _ _ _ _ [(name, index)] htype hdata (encodesAll_flatMap _)
    ⟨?_, ?_⟩
  · exact ⟨_, [], (List.append_nil _).symm, encodesAll_flatMap [name, index], rfl⟩
  · exact fun _ _ => trivial

theorem recordedVars_siblings : RecordedVars siblings 0x06000001 siblingEntries := by
  have hfirst : RecordsVars ⟨5, 4, [8, 16, 2, 0, 5, 4, 0, 4, 0, 0]⟩ [⟨⟨8, 16⟩, 2, 0⟩] :=
    recordsVars_one 8 16 2 0 rfl rfl
  have hsecond : RecordsVars ⟨5, 4, [0, 4, 0, 0]⟩ [⟨⟨0, 4⟩, 0, 0⟩] :=
    recordsVars_one 0 4 0 0 rfl rfl
  refine ⟨[⟨5, 4, [8, 16, 2, 0, 5, 4, 0, 4, 0, 0]⟩, ⟨5, 4, [0, 4, 0, 0]⟩], [_, _], ?_,
    .cons hfirst (.cons hsecond .nil), rfl⟩
  refine ⟨⟨0, 2⟩, by decide, ?_⟩
  refine @Yields.next _ _ ⟨1, 2⟩ _ _ ?_ (@Yields.next _ _ ⟨2, 2⟩ _ _ ?_ (.done ?_))
  · decide
  · decide
  · decide

theorem forest_siblings : Narrow.Forest startOf stopOf siblingEntries := by decide

theorem ilDebugGetVarName_iff_siblings :
    (∃ result, ilDebugGetVarName siblings 0x06000001 2 0 = .ok result ∧
      FoundName siblings 2 (named 0 siblingEntries) result) ↔
    (∀ entry ∈ named 0 siblingEntries, ¬ entry.Covers 2) ∨
      ClearName siblings 2 (named 0 siblingEntries) :=
  ilDebugGetVarName_iff recordedVars_siblings 2 0 forest_siblings

/-- Nothing is found at an offset in the second of two disjoint scopes. -/
theorem not_foundName_siblings : ¬ ∀ (bytes : List ILUInt8) (dbg : ILDebugContext)
    (token : ILToken) (entries : List VarEntry) (offset varNum : ILUInt32),
    ilDebugCreate bytes = .ok dbg → RecordedVars dbg token entries →
      Narrow.Forest startOf stopOf entries →
      ∃ result, ilDebugGetVarName dbg token offset varNum = .ok result ∧
        FoundName dbg offset (named varNum entries) result := by
  intro h
  obtain ⟨result, hresult, hfound⟩ :=
    h _ _ _ _ 2 0 ilDebugCreate_siblings recordedVars_siblings forest_siblings
  have hnone : ilDebugGetVarName siblings 0x06000001 2 0 = .ok none := by decide
  rw [hnone] at hresult
  cases hresult
  have hnamed : named 0 siblingEntries = siblingEntries := by decide
  rw [hnamed] at hfound
  rcases hfound with ⟨hall, -⟩ | ⟨best, hbest, hname⟩
  · exact hall ⟨⟨0, 4⟩, 0, 0⟩ (by decide) (by decide)
  · have hmem := hbest.mem
    have hstring : ∀ entry ∈ siblingEntries, entry.string siblings ≠ none := by decide
    exact hstring best hmem (Option.map_eq_none_iff.mp hname)

end Pnet.Image.Debug
