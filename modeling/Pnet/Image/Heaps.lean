import Pnet.Image.Compress
import Pnet.Support.Intern
import Pnet.Support.Utf

/-! The heaps of an image that is built, `image/create.c`, and their readers in
`image/image.c`. Lengths fit an `int`, allocation succeeds, and a pointer into a heap is the
number of its block and the offset in it. -/
namespace Pnet.Image
open Pnet.Support

namespace Heaps

/-- `data` are the bytes that have been put there. -/
structure ILStringBlock where
  used : ILUInt32
  len : ILUInt32
  data : List ILUInt8
deriving DecidableEq, Repr

inductive Heap where
  | strings
  | blobs
  | userStrings
deriving DecidableEq, Repr

/-- `IL_STRING_HASH_NORMAL`, `IL_STRING_HASH_BLOB` and `IL_STRING_HASH_UNICODE` -/
def Heap.type : Heap → ILUInt32
  | strings => 0x00000000
  | blobs => 0x80000000
  | userStrings => 0x40000000

structure ILStringHash where
  heap : Heap
  value : Nat × Nat
  len : ILUInt32
  offset : ILUInt32
deriving DecidableEq, Repr

structure ILImageBuilder where
  blocks : Heap → List ILStringBlock
  poolSize : Heap → ILUInt32
  hashTable : ILUInt64 → List ILStringHash

def ilNormalBlockSize : ILUInt32 := 1024

def ilImageCreate : ILImageBuilder := ⟨fun _ => [], fun _ => 0, fun _ => []⟩

/-- `hash & (IL_STRING_HASH_SIZE - 1)` -/
def bucket (hash : ILUInt64) : ILUInt64 := hash &&& 511

/-! ### Adding -/

/-- The memory that an entry points to. -/
def ILImageBuilder.value (b : ILImageBuilder) (entry : ILStringHash) : List ILUInt8 :=
  match (b.blocks entry.heap)[entry.value.1]? with
  | some block => block.data.drop entry.value.2
  | none => []

def lookupHash (b : ILImageBuilder) (str header : List ILUInt8) (type : ILUInt32)
    (hash : ILUInt64) : Option ILStringHash :=
  (b.hashTable hash).find? fun entry =>
    entry.len = (BitVec.ofNat 32 (str.length + header.length) ||| type) ∧
      (b.value entry).take header.length = header ∧
      ((b.value entry).drop header.length).take str.length = str

def blockLength (blockLen : ILUInt32) : ILUInt32 :=
  if blockLen < ilNormalBlockSize then ilNormalBlockSize else blockLen

/-- The blocks, and the offset and the address of the content, which goes behind `last` and
the blocks that follow it. -/
def addBehind (fullLen : ILUInt32) (content : List ILUInt8) (offset : ILUInt32)
    (last : ILStringBlock) : List ILStringBlock → List ILStringBlock × ILUInt32 × Nat × Nat
  | next :: rest =>
    let (list, offset, i, posn) := addBehind fullLen content (offset + last.used) next rest
    (last :: list, offset, i + 1, posn)
  | [] =>
    let offset := offset + last.used
    if fullLen ≤ last.len - last.used then
      ([{ last with used := last.used + fullLen, data := last.data ++ content }], offset, 0,
        last.data.length)
    else ([last, ⟨fullLen, blockLength fullLen, content⟩], offset, 1, 0)

def addString (list : List ILStringBlock) (str header : List ILUInt8) :
    List ILStringBlock × ILUInt32 × Nat × Nat :=
  let fullLen := BitVec.ofNat 32 (str.length + header.length)
  match list with
  | last :: rest => addBehind fullLen (header ++ str) 0 last rest
  -- First block, so add the empty string first
  | [] => ([⟨fullLen + 1, blockLength (fullLen + 1), 0 :: (header ++ str)⟩], 0 + 1, 0, 1)

/-- What the four functions do once they have the hash; `len` is what they note in the entry. -/
def addContent (b : ILImageBuilder) (heap : Heap) (hash : ILUInt64) (str header : List ILUInt8)
    (len : ILUInt32) : ILImageBuilder × ILUInt32 :=
  match lookupHash b str header heap.type hash with
  | some entry => (b, entry.offset)
  | none =>
    let (list, offset, finalStr) := addString (b.blocks heap) str header
    let b := { b with blocks := Function.update b.blocks heap list }
    if offset = 0 then (b, 0)
    else
      let entry : ILStringHash := ⟨heap, finalStr, len ||| heap.type, offset⟩
      ({ b with
        poolSize := Function.update b.poolSize heap
          (offset + BitVec.ofNat 32 (header.length + str.length))
        hashTable := Function.update b.hashTable hash (entry :: b.hashTable hash) }, offset)

/-- `str` does not hold the terminating zero. -/
def ilImageAddString (b : ILImageBuilder) (str : List ILUInt8) : ILImageBuilder × ILUInt32 :=
  addContent b .strings (bucket (ilHashString 0 str)) (str ++ [0]) []
    (BitVec.ofNat 32 (str.length + 1))

def ilImageAddBlob (b : ILImageBuilder) (blob : List ILUInt8) : ILImageBuilder × ILUInt32 :=
  let len : ILUInt32 := BitVec.ofNat 32 blob.length
  let header := ilMetaCompressData len
  addContent b .blobs (bucket (ilHashString (ilHashString 0 header) blob)) blob header len

/-- `ILUTF16WriteCharAsBytes` -/
def unitBytes (units : List ILUInt16) : List ILUInt8 :=
  units.flatMap fun (unit : ILUInt16) => [unit.setWidth 8, (unit >>> 8).setWidth 8]

/-- The characters of UTF-8 text. -/
def utf8Chars (str : List ILUInt8) : List ILUInt64 :=
  (Lib.PrefixCode.readAll (ilUTF8ReadChar str str.length) str.length str.length 0).getD []

/-- `str` are the `len` bytes, or those up to the terminating zero if `len` is negative. -/
def ilImageAddUserString (b : ILImageBuilder) (str : List ILUInt8) : ILImageBuilder × ILUInt32 :=
  let wlen := ((utf8Chars str).map utf16CharLength).sum
  let buf := ilMetaCompressData (BitVec.ofNat 32 (wlen * 2 + 1)) ++
    (unitBytes ((utf8Chars str).flatMap ilUTF16WriteChar) ++ [0])
  addContent b .userStrings (bucket (ilHashString 0 buf)) buf [] (BitVec.ofNat 32 buf.length)

/-- The string are `units.length` characters, and one byte behind them. -/
def ilImageAddEncodedUserString (b : ILImageBuilder) (units : List ILUInt16) (last : ILUInt8) :
    ILImageBuilder × ILUInt32 :=
  let strLen : ILUInt32 := BitVec.ofNat 32 (units.length * 2 + 1)
  let header := ilMetaCompressData strLen
  let str := unitBytes units ++ [last]
  addContent b .userStrings (bucket (ilHashString (ilHashString 0 header) str)) str header
    (BitVec.ofNat 32 header.length + strLen)

/-! ### Reading -/

/-- The walk along the blocks: the memory from the offset on, and the offset in the block. -/
def findBlock : List ILStringBlock → ILUInt32 → Option (List ILUInt8 × ILUInt32)
  | [], _ => none
  | block :: rest, offset =>
    if block.used ≤ offset then findBlock rest (offset - block.used)
    else some (block.data.drop offset.toNat, offset)

/-- The memory that the result points to. -/
def ilImageGetString (b : ILImageBuilder) (offset : ILUInt32) : Option (List ILUInt8) :=
  if offset < b.poolSize .strings then (findBlock (b.blocks .strings) offset).map Prod.fst
  else if offset = 0 then some [0]
  else none

/-- `ILMetaUncompressData` on the memory: the length, what is behind it, and how much of
`avail` is left there. -/
def readLength (data : List ILUInt8) (avail : ILUInt32) :
    Option (ILUInt32 × List ILUInt8 × Nat) :=
  let (len, reader) := ilMetaUncompressData ⟨data.take avail.toNat, false⟩
  if reader.error then none
  else
    let posn := (data.take avail.toNat).length - reader.data.length
    some (len, data.drop posn, avail.toNat - posn)

/-- The memory that the result points to, and the length. -/
def ilImageGetBlob (b : ILImageBuilder) (offset : ILUInt32) :
    Option (List ILUInt8 × ILUInt32) := do
  if offset = 0 ∨ b.poolSize .blobs ≤ offset then none
  let (data, offset) ← findBlock (b.blocks .blobs) offset
  let (len, data, left) ← readLength data (b.poolSize .blobs - offset)
  if left < len.toNat then none
  return (data, len)

def ilImageGetUserString (b : ILImageBuilder) (offset : ILUInt32) :
    Option (List ILUInt8 × ILUInt32) := do
  if offset = 0 ∨ b.poolSize .userStrings ≤ offset then none
  let (data, offset) ← findBlock (b.blocks .userStrings) offset
  let (slen, data, left) ← readLength data (b.poolSize .userStrings - offset)
  if slen &&& 1 = 0 ∨ left < slen.toNat then none
  return (data, slen / 2)

end Heaps

end Pnet.Image
