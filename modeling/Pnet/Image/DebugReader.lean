import Pnet.Image.MetaIndex
import Pnet.Lib.Sorted

/-! The reader of a debug section, `image/debug_reader.c`. A pointer into the section is an offset
in it, and a read outside it is an error. -/
namespace Pnet.Image.Debug
open Lib

/-- There are no `bytes` when the section has no valid header, and a table that is not valid has no
entries. -/
structure ILDebugContext where
  bytes : List ILUInt8
  index : Nat
  indexSize : Nat
  strings : Nat
  stringsLen : Nat
deriving DecidableEq, Repr

/-- The offset and the length of the index table, when they are valid. -/
def readIndex (bytes : List ILUInt8) : Except MetaStop (Nat × Nat) := do
  let offset ← ilReadUInt32 bytes 8
  if offset.toNat < bytes.length then do
    let len ← ilReadUInt32 bytes 12
    if len < 0x20000000 ∧ len.toNat * 8 ≤ bytes.length - offset.toNat then
      .ok (offset.toNat, len.toNat)
    else .ok (0, 0)
  else .ok (0, 0)

/-- The offset and the length of the string table, when they are valid. -/
def readStrings (bytes : List ILUInt8) : Except MetaStop (Nat × Nat) := do
  let offset ← ilReadUInt32 bytes 16
  if offset.toNat < bytes.length then do
    let len ← ilReadUInt32 bytes 20
    if 0 < len.toNat ∧ len.toNat ≤ bytes.length - offset.toNat ∧
        bytes[offset.toNat + len.toNat - 1]? = some 0 then
      .ok (offset.toNat, len.toNat)
    else .ok (0, 0)
  else .ok (0, 0)

def ilDebugCreate (bytes : List ILUInt8) : Except MetaStop ILDebugContext :=
  if bytes.length < 24 ∨ bytes.take 4 ≠ [0x49, 0x4C, 0x44, 0x42] then .ok ⟨[], 0, 0, 0, 0⟩
  else do
    let version ← ilReadUInt32 bytes 4
    if version ≠ 1 then .ok ⟨[], 0, 0, 0, 0⟩
    else do
      let (index, indexSize) ← readIndex bytes
      let (strings, stringsLen) ← readStrings bytes
      .ok ⟨bytes, index, indexSize, strings, stringsLen⟩

/-- The memory from the string on. -/
def ilDebugGetString (dbg : ILDebugContext) (offset : ILUInt32) : Option (List ILUInt8) :=
  if offset.toNat < dbg.stringsLen then some (dbg.bytes.drop (dbg.strings + offset.toNat))
  else none

/-! ### Blocks -/

structure ILDebugIter where
  reserved1 : Nat
  reserved2 : Nat
deriving DecidableEq, Repr

/-- `data` is the memory from the bytes of the block on. -/
structure ILDebugBlock where
  type : ILUInt32
  length : ILUInt32
  data : List ILUInt8
deriving DecidableEq, Repr

def testToken (dbg : ILDebugContext) (token : ILToken) (i : Nat) : Except MetaStop Ordering := do
  let test ← ilReadUInt32 dbg.bytes (dbg.index + i * 8)
  .ok (if test = token then .eq else if test < token then .lt else .gt)

def ilDebugIterInit (dbg : ILDebugContext) (token : ILToken) : Except MetaStop ILDebugIter := do
  match ← SortedSearch.search (testToken dbg token) dbg.indexSize 0 dbg.indexSize with
  | none => .ok ⟨0, 0⟩
  | some middle => do
    let left ← SortedSearch.first (testToken dbg token) middle
    let right ← SortedSearch.last (testToken dbg token) (dbg.indexSize - 1 - middle) middle
    .ok ⟨left, right + 1⟩

/-- The block of an entry of the index, when it is formatted correctly. -/
def readBlock (dbg : ILDebugContext) (i : Nat) : Except MetaStop (Option ILDebugBlock) := do
  let offset ← ilReadUInt32 dbg.bytes (dbg.index + i * 8 + 4)
  if dbg.bytes.length ≤ offset.toNat then .ok none
  else
    let (type, reader) := ilMetaUncompressData ⟨dbg.bytes.drop offset.toNat, false⟩
    let (length, reader) := ilMetaUncompressData reader
    if reader.error = true ∨ reader.data.length < length.toNat then .ok none
    else .ok (some ⟨type, length, reader.data⟩)

/-- The next block of `count` entries, and the entry behind it. -/
def nextBlock (dbg : ILDebugContext) : Nat → Nat → Except MetaStop (Option (ILDebugBlock × Nat))
  | 0, _ => .ok none
  | count + 1, i => do
    match ← readBlock dbg i with
    | none => nextBlock dbg count (i + 1)
    | some block => .ok (some (block, i + 1))

def ilDebugIterNext (dbg : ILDebugContext) (iter : ILDebugIter) :
    Except MetaStop (Option (ILDebugBlock × ILDebugIter)) := do
  let next ← nextBlock dbg (iter.reserved2 - iter.reserved1) iter.reserved1
  .ok (next.map fun found => (found.1, ⟨found.2, iter.reserved2⟩))

/-- What `ILDebugIterNext` returns, call for call, until there are no more blocks. -/
inductive Yields (dbg : ILDebugContext) : ILDebugIter → List ILDebugBlock → Prop
  | done {iter : ILDebugIter} (h : ilDebugIterNext dbg iter = .ok none) : Yields dbg iter []
  | next {iter iter' : ILDebugIter} {block : ILDebugBlock} {blocks : List ILDebugBlock}
      (h : ilDebugIterNext dbg iter = .ok (some (block, iter'))) (hrest : Yields dbg iter' blocks) :
      Yields dbg iter (block :: blocks)

end Pnet.Image.Debug

/-! ### Lines and variables

How `image/debug_reader.c` looks up the line of an offset and the name of a variable. -/
namespace Pnet.Image.Debug

/-- The body of a loop over the blocks; at most so many are read. -/
def forBlocks {S : Type} (dbg : ILDebugContext) (body : S → ILDebugBlock → S) :
    Nat → ILDebugIter → S → Except MetaStop S
  | 0, _, state => .ok state
  | steps + 1, iter, state => do
    match ← ilDebugIterNext dbg iter with
    | none => .ok state
    | some (block, iter) => forBlocks dbg body steps iter (body state block)

/-- All the blocks of a token. -/
def forToken {S : Type} (dbg : ILDebugContext) (token : ILToken) (body : S → ILDebugBlock → S)
    (state : S) : Except MetaStop S := do
  let iter ← ilDebugIterInit dbg token
  forBlocks dbg body (iter.reserved2 - iter.reserved1) iter state

/-- A reader of the bytes of a block. -/
def ILDebugBlock.reader (block : ILDebugBlock) : ILMetaDataRead :=
  ⟨block.data.take block.length.toNat, false⟩

/-! ### Lines -/

inductive LineFormat where
  | lineCol | lineOffsets | lineColOffsets
deriving DecidableEq, Repr

/-- `IL_DEBUGTYPE_LINE_COL` and so on -/
def LineFormat.type : LineFormat → ILUInt32
  | lineCol => 1
  | lineOffsets => 2
  | lineColOffsets => 3

def lineFormat (type : ILUInt32) : Option LineFormat :=
  [.lineCol, .lineOffsets, .lineColOffsets].find? fun format => LineFormat.type format = type

structure Mark where
  line : ILUInt32
  column : ILUInt32
  offset : ILUInt32
deriving DecidableEq, Repr

def readMark : LineFormat → ILMetaDataRead → Mark × ILMetaDataRead
  | .lineCol, reader =>
    let (tempLine, reader) := ilMetaUncompressData reader
    let (tempColumn, reader) := ilMetaUncompressData reader
    (⟨tempLine, tempColumn, 0⟩, reader)
  | .lineOffsets, reader =>
    let (tempLine, reader) := ilMetaUncompressData reader
    let (tempOffset, reader) := ilMetaUncompressData reader
    (⟨tempLine, 0, tempOffset⟩, reader)
  | .lineColOffsets, reader =>
    let (tempLine, reader) := ilMetaUncompressData reader
    let (tempColumn, reader) := ilMetaUncompressData reader
    let (tempOffset, reader) := ilMetaUncompressData reader
    (⟨tempLine, tempColumn, tempOffset⟩, reader)

/-- The best mark so far; `filename` is the memory from the string on. -/
structure Low where
  filename : Option (List ILUInt8) := none
  offset : ILUInt32 := 0
  line : ILUInt32 := 0
  column : ILUInt32 := 0
deriving DecidableEq, Repr

def Low.update (low : Low) (offset : ILUInt32) (filename : List ILUInt8) (mark : Mark) : Low :=
  if mark.offset ≤ offset ∧ low.offset ≤ mark.offset then
    if low.filename = none ∨ low.line < mark.line then
      ⟨some filename, mark.offset, mark.line, mark.column⟩
    else low
  else low

/-- Each mark takes at least one byte, so that there are at most so many. -/
def markLoop (offset : ILUInt32) (filename : List ILUInt8) (format : LineFormat) :
    Nat → ILMetaDataRead → Low → Low
  | 0, _, low => low
  | steps + 1, reader, low =>
    if reader.data = [] then low
    else
      let (mark, reader) := readMark format reader
      if reader.error then low
      else markLoop offset filename format steps reader (low.update offset filename mark)

def lineBlock (dbg : ILDebugContext) (offset : ILUInt32) (low : Low) (block : ILDebugBlock) : Low :=
  match lineFormat block.type with
  | none => low
  | some format =>
    let (str, reader) := ilMetaUncompressData block.reader
    match ilDebugGetString dbg str with
    | none => low
    | some tempFilename =>
      if reader.error then low
      else markLoop offset tempFilename format reader.data.length reader low

/-- The file, the line and the column. -/
def ilDebugGetLineInfo (dbg : ILDebugContext) (token : ILToken) (offset : ILUInt32) :
    Except MetaStop (Option (List ILUInt8) × ILUInt32 × ILUInt32) := do
  let low ← forToken dbg token (lineBlock dbg offset) {}
  .ok (low.filename, low.line, low.column)

/-! ### Variables -/

/-- `IL_DEBUGTYPE_VARS` -/
def debugTypeVars : ILUInt32 := 4

/-- `IL_DEBUGTYPE_VARS_OFFSETS` -/
def debugTypeVarsOffsets : ILUInt32 := 5

structure Scope where
  start : ILUInt32 := 0
  stop : ILUInt32 := 0xFFFFFFFF
deriving DecidableEq, Repr

/-- The scope of a block, unless its bytes end in it. -/
def readScope (type : ILUInt32) (reader : ILMetaDataRead) : Option (Scope × ILMetaDataRead) :=
  if type = debugTypeVarsOffsets then
    let (tempStart, reader) := ilMetaUncompressData reader
    let (tempEnd, reader) := ilMetaUncompressData reader
    if reader.error then none
    else some (⟨tempStart, if tempEnd < tempStart then tempStart else tempEnd⟩, reader)
  else some ({}, reader)

/-- The name that is found, and the scope that is current. -/
structure VarState where
  name : Option (List ILUInt8) := none
  scope : Scope := {}
deriving DecidableEq, Repr

def Scope.contains (scope : Scope) (offset : ILUInt32) : Bool :=
  scope.start ≤ offset && offset < scope.stop

def VarState.update (state : VarState) (dbg : ILDebugContext) (offset : ILUInt32) (scope : Scope)
    (tempName : ILUInt32) : VarState :=
  if state.scope.start ≤ scope.start ∧ scope.stop ≤ state.scope.stop then
    ⟨if scope.contains offset then ilDebugGetString dbg tempName else state.name, scope⟩
  else state

def varLoop (dbg : ILDebugContext) (offset varNum : ILUInt32) (scope : Scope) :
    Nat → ILMetaDataRead → VarState → VarState
  | 0, _, state => state
  | steps + 1, reader, state =>
    if reader.data = [] then state
    else
      let (tempName, reader) := ilMetaUncompressData reader
      let (tempIndex, reader) := ilMetaUncompressData reader
      if reader.error then state
      else if tempIndex ≠ varNum then varLoop dbg offset varNum scope steps reader state
      else
        varLoop dbg offset varNum scope steps reader (state.update dbg offset scope tempName)

def varBlock (dbg : ILDebugContext) (offset varNum : ILUInt32) (state : VarState)
    (block : ILDebugBlock) : VarState :=
  if block.type ≠ debugTypeVars ∧ block.type ≠ debugTypeVarsOffsets then state
  else
    match readScope block.type block.reader with
    | none => state
    | some (scope, reader) => varLoop dbg offset varNum scope reader.data.length reader state

def ilDebugGetVarName (dbg : ILDebugContext) (token : ILToken) (offset varNum : ILUInt32) :
    Except MetaStop (Option (List ILUInt8)) := do
  let state ← forToken dbg token (varBlock dbg offset varNum) {}
  .ok state.name

end Pnet.Image.Debug
