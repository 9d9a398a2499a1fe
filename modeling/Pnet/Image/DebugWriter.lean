import Pnet.Image.Compress
import Pnet.Lib.Chunks
import Pnet.Lib.Sorted

/-! The debug section of an image, as `image/debug_writer.c` makes it. Allocation succeeds, and the
hash table of the strings is the list of its items. -/
namespace Pnet.Image
open Lib

/-- `IL_WRITE_UINT32` -/
def ilWriteUInt32 (value : ILUInt32) : List ILUInt8 :=
  [value.setWidth 8, (value >>> 8).setWidth 8, (value >>> 16).setWidth 8, (value >>> 24).setWidth 8]

/-- `offset` is the number of bytes, which wraps. -/
structure ILWBufferList where
  chunks : Chunks := {}
  offset : ILUInt32 := 0
deriving DecidableEq, Repr

/-- `IL_WRITE_BUFFER_SIZE` -/
def ilWriteBufferSize : Nat := 2048

def ilwBufferListAdd (list : ILWBufferList) (buffer : List ILUInt8) (size : ILUInt32) :
    ILWBufferList :=
  ⟨list.chunks.add ilWriteBufferSize (buffer.take size.toNat), list.offset + size⟩

namespace Debug

/-- A string of C; its terminating zero is not one of the characters. -/
structure CString where
  chars : List ILUInt8
  no_zero : 0 ∉ chars

def CString.bytes (str : CString) : List ILUInt8 := str.chars ++ [0]

/-- An entry of the index, for an item or a pseudo token. -/
structure ILDebugToken (I : Type) where
  item : Option I
  pseudo : ILToken
  offset : ILUInt32

structure ILDebugHashItem where
  name : List ILUInt8
  offset : ILUInt32
deriving DecidableEq, Repr

structure ILWriter (I : Type) where
  debugData : ILWBufferList := {}
  debugStrings : ILWBufferList := {}
  debugTokens : List (ILDebugToken I) := []
  debugHash : List ILDebugHashItem := []

/-- `IL_DEBUG_HEADER_SIZE` -/
def debugHeaderSize : ILUInt32 := 24

variable {I : Type}

/-- The offset of the string, and what is left. -/
def ilWriterDebugString (writer : ILWriter I) (str : CString) : ILUInt32 × ILWriter I :=
  match writer.debugHash.find? fun item => item.name = str.chars with
  | some item => (item.offset, writer)
  | none =>
    let offset := writer.debugStrings.offset
    (offset, { writer with
      debugStrings :=
        ilwBufferListAdd writer.debugStrings str.bytes (BitVec.ofNat 32 str.bytes.length)
      debugHash := ⟨str.chars, offset⟩ :: writer.debugHash })

def writerDebugAdd (writer : ILWriter I) (item : Option I) (pseudo : ILToken) (type : ILUInt32)
    (info : List ILUInt8) : ILWriter I :=
  let len : ILUInt32 := BitVec.ofNat 32 info.length
  let header := ilMetaCompressData type ++ ilMetaCompressData len
  let offset := writer.debugData.offset + debugHeaderSize
  { writer with
    debugData := ilwBufferListAdd
      (ilwBufferListAdd writer.debugData header (BitVec.ofNat 32 header.length)) info len
    debugTokens := writer.debugTokens ++ [⟨item, pseudo, offset⟩] }

def ilWriterDebugAdd (writer : ILWriter I) (item : I) (type : ILUInt32) (info : List ILUInt8) :
    ILWriter I :=
  writerDebugAdd writer (some item) 0 type info

def ilWriterDebugAddPseudo (writer : ILWriter I) (token : ILToken) (type : ILUInt32)
    (info : List ILUInt8) : ILWriter I :=
  writerDebugAdd writer none token type info

/-! ### The section -/

variable (tokenOf : I → ILToken)

/-- The token of an item is that which it has when the section is written. -/
def ILDebugToken.token (entry : ILDebugToken I) : ILToken :=
  match entry.item with
  | some item => tokenOf item
  | none => entry.pseudo

/-- What `qsort` may leave with `DebugIndexCompare`. -/
def SortedIndex (before after : List (ILDebugToken I)) : Prop :=
  Sorts (fun entry => (entry.token tokenOf).toNat) before after

/-- What is done where there is no `qsort`. -/
def sortIndex (entries : List (ILDebugToken I)) : List (ILDebugToken I) :=
  exchangeSort (fun entry => (entry.token tokenOf).toNat) entries

theorem sortedIndex_sortIndex (entries : List (ILDebugToken I)) :
    SortedIndex tokenOf entries (sortIndex tokenOf entries) :=
  exchangeSort_sorts entries

/-- The string table must not be empty. -/
def stringTable (writer : ILWriter I) : ILWBufferList :=
  if writer.debugStrings.offset = 0 then ilwBufferListAdd writer.debugStrings [0] 1
  else writer.debugStrings

/-- The bytes up to a multiple of four. -/
def adjust (value : ILUInt32) : Nat :=
  if value &&& 3 ≠ 0 then 4 - (value &&& 3).toNat else 0

/-- The bytes of ".ildebug"; `index` is the token index after it is sorted. -/
def ilWriteDebug (writer : ILWriter I) (index : List (ILDebugToken I)) : List ILUInt8 :=
  let strings := stringTable writer
  let value := debugHeaderSize + writer.debugData.offset + strings.offset
  let header := [0x49, 0x4C, 0x44, 0x42] ++ ilWriteUInt32 1 ++
    ilWriteUInt32 (value + BitVec.ofNat 32 (adjust value)) ++
    ilWriteUInt32 (BitVec.ofNat 32 writer.debugTokens.length) ++
    ilWriteUInt32 (debugHeaderSize + writer.debugData.offset) ++ ilWriteUInt32 strings.offset
  header ++ (writer.debugData.chunks.pieces ilWriteBufferSize).flatten ++
    (strings.chunks.pieces ilWriteBufferSize).flatten ++ List.replicate (adjust value) 0 ++
    index.flatMap fun entry => ilWriteUInt32 (entry.token tokenOf) ++ ilWriteUInt32 entry.offset

/-! ### Calls -/

inductive Call (I : Type) where
  | string (str : CString)
  | add (item : I) (type : ILUInt32) (info : List ILUInt8)
  | addPseudo (token : ILToken) (type : ILUInt32) (info : List ILUInt8)

def Call.run (writer : ILWriter I) : Call I → ILWriter I
  | string str => (ilWriterDebugString writer str).2
  | add item type info => ilWriterDebugAdd writer item type info
  | addPseudo token type info => ilWriterDebugAddPseudo writer token type info

/-- The string and the offset that is returned for it. -/
def Call.returned (writer : ILWriter I) : Call I → List (CString × ILUInt32)
  | string str => [(str, (ilWriterDebugString writer str).1)]
  | _ => []

/-- The offsets that calls return. -/
def returned (writer : ILWriter I) : List (Call I) → List (CString × ILUInt32)
  | [] => []
  | call :: calls => call.returned writer ++ returned (call.run writer) calls

/-- The token, the type and the bytes of a block that is added. -/
def Call.block : Call I → Option (ILToken × ILUInt32 × List ILUInt8)
  | string _ => none
  | add item type info => some (tokenOf item, type, info)
  | addPseudo token type info => some (token, type, info)

end Debug

end Pnet.Image
