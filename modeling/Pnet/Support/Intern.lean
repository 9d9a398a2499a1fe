import Pnet.CTypes
import Pnet.Lib.Agree
import Pnet.Lib.Chain

/-! The string interning of `support/intern.c`. A call gives `none` where its C is undefined:
bytes that cannot be read, a length that an `int` does not hold. Allocation is taken to
succeed. The strings that the concatenations take are results of earlier calls. -/
namespace Pnet.Support
open Pnet.Lib

/-- `ILHashString`; `char` is signed. -/
def ilHashString (start : ILUInt64) (str : List ILUInt8) : ILUInt64 :=
  str.foldl (fun hash c => (hash <<< 5) + hash + c.signExtend 64) start

/-- What an interned string points to. -/
inductive StringRef where
  | emptyString
  | entry (id : Nat)
deriving DecidableEq, Repr

structure ILIntString where
  string : StringRef
  len : Nat
deriving DecidableEq, Repr

/-- An entry has `str.length` bytes, and is numbered as it is allocated. -/
structure InternEntry where
  next : Option Nat
  str : List ILUInt8

/-- `fresh` is the number of the next entry. -/
structure InternTable where
  hashTable : Nat → Option Nat
  entry : Nat → InternEntry
  fresh : Nat

namespace InternTable

def empty : InternTable := ⟨fun _ => none, fun _ => ⟨none, []⟩, 0⟩

def next (t : InternTable) (id : Nat) : Option Nat := (t.entry id).next

def str (t : InternTable) (id : Nat) : List ILUInt8 := (t.entry id).str

/-- The bytes that an interned string stands for. -/
def bytes (t : InternTable) (s : ILIntString) : List ILUInt8 :=
  match s.string with
  | .emptyString => []
  | .entry id => (t.str id).take s.len

def bucket (hash : ILUInt64) : Nat := hash.toNat % 2039

def add (t : InternTable) (hash : ILUInt64) (str : List ILUInt8) : InternTable × ILIntString :=
  (⟨Function.update t.hashTable (bucket hash) (some t.fresh),
      Function.update t.entry t.fresh ⟨t.hashTable (bucket hash), str⟩, t.fresh + 1⟩,
    ⟨.entry t.fresh, str.length⟩)

/-- The search and the addition that end each of the functions. -/
def findOrAdd (t : InternTable) (hash : ILUInt64) (test : List ILUInt8 → Bool)
    (str : List ILUInt8) : Option (InternTable × ILIntString) :=
  match seek t.next (fun id => test (t.str id)) t.fresh (t.hashTable (bucket hash)) with
  | some (some id) => some (t, ⟨.entry id, (t.str id).length⟩)
  | some none => some (t.add hash str)
  | none => none

end InternTable

def emptyResult : ILIntString := ⟨.emptyString, 0⟩

/-- `strlen` of what can be read at a pointer, as an `int`. -/
def strlen (str : Option (List ILUInt8)) : Option Nat := do
  let buf ← str
  let len ← buf.idxOf? 0
  if len ≤ 2147483647 then some len else none

/-- A null `str` is `none`; otherwise it is the bytes that can be read there. -/
def ilInternString (t : InternTable) (str : Option (List ILUInt8)) (len : ILInt32) :
    Option (InternTable × ILIntString) :=
  (if len.toInt < 0 then strlen str else some len.toNat).bind fun len =>
    match str with
    | none => some (t, emptyResult)
    | some buf =>
      if len = 0 then some (t, emptyResult)
      else if buf.length < len then none
      else
        t.findOrAdd (ilHashString 0 (buf.take len)) (fun entry => entry = buf.take len)
          (buf.take len)

/-- The pieces are compared with the bytes of an entry one after the other. -/
def matchPieces (str : List ILUInt8) : Nat → List (List ILUInt8) → Bool
  | _, [] => true
  | posn, piece :: pieces =>
    if (str.drop posn).take piece.length = piece then
      matchPieces str (posn + piece.length) pieces
    else false

def hashPieces (pieces : List (List ILUInt8)) : ILUInt64 := pieces.foldl ilHashString 0

/-- What the concatenations do when no early exit applies. -/
def internPieces (t : InternTable) (strs : List ILIntString) :
    Option (InternTable × ILIntString) :=
  let pieces := strs.map t.bytes
  let len := (strs.map ILIntString.len).sum
  if 2147483647 < len then none
  else t.findOrAdd (hashPieces pieces)
    (fun entry => entry.length = len ∧ matchPieces entry 0 pieces = true) pieces.flatten

def ilInternAppendedString (t : InternTable) (str1 str2 : ILIntString) :
    Option (InternTable × ILIntString) :=
  if str1.len = 0 then some (t, str2)
  else if str2.len = 0 then some (t, str1)
  else internPieces t [str1, str2]

def ilInternStringConcat3 (t : InternTable) (str1 str2 str3 : ILIntString) :
    Option (InternTable × ILIntString) :=
  if str1.len = 0 ∧ str2.len = 0 then some (t, str3)
  else if str1.len = 0 ∧ str3.len = 0 then some (t, str2)
  else if str2.len = 0 ∧ str3.len = 0 then some (t, str1)
  else internPieces t [str1, str2, str3]

def ilInternStringConcat4 (t : InternTable) (str1 str2 str3 str4 : ILIntString) :
    Option (InternTable × ILIntString) :=
  internPieces t [str1, str2, str3, str4]

def ilInternStringConcat5 (t : InternTable) (str1 str2 str3 str4 str5 : ILIntString) :
    Option (InternTable × ILIntString) :=
  internPieces t [str1, str2, str3, str4, str5]

/-! ### Calls -/

/-- A call; the strings it takes are given by the position of the call they come from. -/
inductive InternCall where
  | internString (str : Option (List ILUInt8)) (len : ILInt32)
  | appended (str1 str2 : Nat)
  | concat3 (str1 str2 str3 : Nat)
  | concat4 (str1 str2 str3 str4 : Nat)
  | concat5 (str1 str2 str3 str4 str5 : Nat)

/-- The table, and the results so far. -/
structure InternState where
  table : InternTable
  results : List ILIntString

def InternState.init : InternState := ⟨.empty, []⟩

def InternState.call (s : InternState) :
    InternCall → Option (InternTable × ILIntString)
  | .internString str len => ilInternString s.table str len
  | .appended str1 str2 => do ilInternAppendedString s.table (← s.results[str1]?) (← s.results[str2]?)
  | .concat3 str1 str2 str3 => do
    ilInternStringConcat3 s.table (← s.results[str1]?) (← s.results[str2]?) (← s.results[str3]?)
  | .concat4 str1 str2 str3 str4 => do
    ilInternStringConcat4 s.table (← s.results[str1]?) (← s.results[str2]?) (← s.results[str3]?)
      (← s.results[str4]?)
  | .concat5 str1 str2 str3 str4 str5 => do
    ilInternStringConcat5 s.table (← s.results[str1]?) (← s.results[str2]?) (← s.results[str3]?)
      (← s.results[str4]?) (← s.results[str5]?)

def InternState.step (s : InternState) (call : InternCall) : Option (InternState × Unit) :=
  (s.call call).map fun r => (⟨r.1, s.results ++ [r.2]⟩, ())

/-! ### What the results stand for -/

/-- The bytes that `ILInternString` is asked for, if they are there. -/
def internBytes (str : Option (List ILUInt8)) (len : ILInt32) : Option (List ILUInt8) :=
  (if len.toInt < 0 then strlen str else some len.toNat).bind fun len =>
    let buf := str.getD []
    if str = none then some []
    else if len ≤ buf.length then some (buf.take len)
    else none

namespace InternCall

/-- The byte strings that a call puts together, given those of the earlier calls. -/
def pieces (denoted : List (List ILUInt8)) : InternCall → Option (List (List ILUInt8))
  | internString str len => do return [← internBytes str len]
  | appended str1 str2 => do return [← denoted[str1]?, ← denoted[str2]?]
  | concat3 str1 str2 str3 => do return [← denoted[str1]?, ← denoted[str2]?, ← denoted[str3]?]
  | concat4 str1 str2 str3 str4 => do
    return [← denoted[str1]?, ← denoted[str2]?, ← denoted[str3]?, ← denoted[str4]?]
  | concat5 str1 str2 str3 str4 str5 => do
    return [← denoted[str1]?, ← denoted[str2]?, ← denoted[str3]?, ← denoted[str4]?,
      ← denoted[str5]?]

/-- The calls that have no exit for empty strings. -/
def noExit : InternCall → Prop
  | concat4 .. | concat5 .. => True
  | _ => False

def apply (denoted : List (List ILUInt8)) (call : InternCall) : List (List ILUInt8) × Unit :=
  (denoted ++ [((call.pieces denoted).getD []).flatten], ())

/-- The call is defined, and no `Concat4` or `Concat5` of empty strings only. -/
def meets (denoted : List (List ILUInt8)) (call : InternCall) : Prop :=
  ∃ pieces, call.pieces denoted = some pieces ∧ pieces.flatten.length ≤ 2147483647 ∧
    (call.noExit → pieces.flatten ≠ [])

end InternCall

namespace InternState

/-- Two results are the same pointer exactly if they stand for the same bytes. -/
def Canonical (s : InternState) : Prop :=
  ∀ r ∈ s.results, ∀ r' ∈ s.results,
    r.string = r'.string ↔ r.len = r'.len ∧ s.table.bytes r = s.table.bytes r'

/-- The results stand for these byte strings, canonically. -/
def Is (s : InternState) (denoted : List (List ILUInt8)) : Prop :=
  s.results.map s.table.bytes = denoted ∧ s.Canonical

end InternState

end Pnet.Support
