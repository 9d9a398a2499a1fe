import Pnet.CTypes
import Pnet.Lib.Chain

/-! The two lists of `support/list.c`, and the sequence that both stand for. Pointers have
eight bytes. An operation gives `none` where its C is undefined: an access outside a buffer,
a `memcpy` between parts that overlap, an overflow of the count. Allocation is taken to
succeed. The callback of a walk may write to the element it is shown, but not use the list. -/
namespace Pnet.Support
open Pnet.Lib

/-- A `void *`, as its bytes in memory. -/
abbrev Ptr := Fin 8 → ILUInt8

def nullPtr : Ptr := fun _ => 0

/-- Whether to go on, what to leave in the element, and the state to go on with. -/
abbrev ILListWalkCallback (σ : Type) := σ → Ptr → Bool × Ptr × σ

variable {σ : Type}

/-! ### The array list -/

structure Buffer where
  size : Nat
  byte : Nat → ILUInt8

namespace Buffer

/-- `memcpy` between different buffers. -/
def copyFrom (dest : Buffer) (destPosn : Nat) (src : Buffer) (srcPosn len : Nat) : Option Buffer :=
  if destPosn + len ≤ dest.size ∧ srcPosn + len ≤ src.size then
    some ⟨dest.size, fun posn =>
      if destPosn ≤ posn ∧ posn < destPosn + len then src.byte (srcPosn + (posn - destPosn))
      else dest.byte posn⟩
  else none

/-- `memcpy` inside a buffer. -/
def copyWithin (buf : Buffer) (destPosn srcPosn len : Nat) : Option Buffer :=
  if destPosn + len ≤ srcPosn ∨ srcPosn + len ≤ destPosn then
    buf.copyFrom destPosn buf srcPosn len
  else none

def elem (buf : Buffer) (index : Nat) : Ptr := fun k => buf.byte (8 * index + k)

def InBounds (buf : Buffer) (index : Int) : Prop := 0 ≤ index ∧ 8 * index + 8 ≤ buf.size

instance (buf : Buffer) (index : Int) : Decidable (buf.InBounds index) :=
  inferInstanceAs (Decidable (_ ∧ _))

def load (buf : Buffer) (index : Int) : Option Ptr :=
  if buf.InBounds index then some (buf.elem index.toNat) else none

def store (buf : Buffer) (index : Int) (data : Ptr) : Option Buffer :=
  if buf.InBounds index then
    some ⟨buf.size, fun posn =>
      if h : 8 * index.toNat ≤ posn ∧ posn < 8 * index.toNat + 8 then
        data ⟨posn - 8 * index.toNat, by omega⟩
      else buf.byte posn⟩
  else none

end Buffer

structure ILArrayList where
  count : Int
  capacity : Nat
  array : Buffer

/-- What memory holds before it is written. -/
abbrev Garbage := Nat → ILUInt8

def ilArrayListCreate (garbage : Garbage) (capacity : Int) : ILArrayList :=
  let capacity := if capacity < 16 then 16 else capacity.toNat
  ⟨0, capacity, ⟨capacity * 8, garbage⟩⟩

/-- A full array moves to a block of `capacity * 2` bytes. -/
def ILArrayList.grow (garbage : Garbage) (list : ILArrayList) : Option ILArrayList := do
  let newArray ← (Buffer.mk (list.capacity * 2) garbage).copyFrom 0 list.array 0 (list.capacity * 8)
  some { list with array := newArray, capacity := list.capacity * 2 }

def ilArrayListAppend (garbage : Garbage) (list : ILArrayList) (data : Ptr) :
    Option (ILArrayList × Int) := do
  let list ← if list.count = list.capacity then list.grow garbage else some list
  let array ← list.array.store list.count data
  some ({ list with array := array, count := list.count + 1 }, list.count)

def ilArrayListGetAt (list : ILArrayList) (index : Int) : Option Ptr :=
  if index < 0 then some nullPtr
  else if list.count ≤ index then some nullPtr
  else list.array.load index

/-- The loop of the searches, with `rounds` to go. -/
def findFrom (array : Buffer) (data : Ptr) : Nat → Nat → Option (Option Nat)
  | 0, _ => some none
  | rounds + 1, i => do
    let elem ← array.load i
    if elem = data then some (some i) else findFrom array data rounds (i + 1)

def ilArrayListFind (list : ILArrayList) (data : Ptr) : Option (Option Nat) :=
  findFrom list.array data list.count.toNat 0

def reverseFindFrom (array : Buffer) (data : Ptr) : Nat → Option (Option Nat)
  | 0 => some none
  | i + 1 => do
    let elem ← array.load i
    if elem = data then some (some i) else reverseFindFrom array data i

def ilArrayListReverseFind (list : ILArrayList) (data : Ptr) : Option (Option Nat) :=
  reverseFindFrom list.array data list.count.toNat

def ilArrayListRemove (list : ILArrayList) (data : Ptr) : Option (ILArrayList × Int) := do
  let found ← findFrom list.array data list.count.toNat 0
  match found with
  | some i => some (list, i)
  | none => some ({ list with count := list.count - 1 }, -1)

def ilArrayListRemoveAt (list : ILArrayList) (index : Int) : Option (ILArrayList × Int) :=
  if index < 0 then some (list, -1)
  else if list.count ≤ index then some (list, -1)
  else do
    let array ← list.array.copyWithin (8 * index.toNat) (8 * (index.toNat + 1))
      (list.count - index - 1).toNat
    let array ← array.store (list.count - 1) nullPtr
    some ({ list with array := array, count := list.count - 1 }, index)

def walkFrom (callback : ILListWalkCallback σ) :
    Nat → Nat → Buffer → σ → Option (Buffer × Nat × σ)
  | 0, i, array, state => some (array, i, state)
  | rounds + 1, i, array, state => do
    let elem ← array.load i
    let (more, data, state) := callback state elem
    let array ← array.store i data
    if more then walkFrom callback rounds (i + 1) array state else some (array, i + 1, state)

def ilArrayListWalk (list : ILArrayList) (callback : ILListWalkCallback σ) (state : σ) :
    Option (ILArrayList × Nat × σ) := do
  let (array, count, state) ← walkFrom callback list.count.toNat 0 list.array state
  some ({ list with array := array }, count, state)

/-! ### The singly linked list -/

structure ILSinglyLinkedListEntry where
  next : Option Nat
  data : Ptr

/-- Entries are numbered as they are allocated; `fresh` is the next number. -/
structure ILSinglyLinkedList where
  count : Int
  first : Option Nat
  last : Option Nat
  entry : Nat → ILSinglyLinkedListEntry
  fresh : Nat

def ilSinglyLinkedListCreate : ILSinglyLinkedList := ⟨0, none, none, fun _ => ⟨none, nullPtr⟩, 0⟩

namespace ILSinglyLinkedList

def next (list : ILSinglyLinkedList) (r : Nat) : Option Nat := (list.entry r).next

def data (list : ILSinglyLinkedList) (r : Nat) : Ptr := (list.entry r).data

def setNext (list : ILSinglyLinkedList) (r : Nat) (next : Option Nat) : ILSinglyLinkedList :=
  { list with entry := Function.update list.entry r { list.entry r with next := next } }

def setData (list : ILSinglyLinkedList) (r : Nat) (data : Ptr) : ILSinglyLinkedList :=
  { list with entry := Function.update list.entry r { list.entry r with data := data } }

/-- A new entry, outside the list. -/
def alloc (list : ILSinglyLinkedList) (data : Ptr) : ILSinglyLinkedList :=
  { list with entry := Function.update list.entry list.fresh ⟨none, data⟩, fresh := list.fresh + 1 }

def addLast (list : ILSinglyLinkedList) (r : Nat) : ILSinglyLinkedList :=
  match list.last with
  | some last => { list.setNext last (some r) with last := some r }
  | none => { list with first := some r, last := some r }

/-- Take `r` out of the list, where `prev` is the entry before it. -/
def unlink (list : ILSinglyLinkedList) (prev : Option Nat) (r : Nat) : ILSinglyLinkedList :=
  match prev with
  | none =>
    { list with
      first := list.next r
      last := if list.next r = none then none else list.last
      count := list.count - 1 }
  | some p =>
    { list.setNext p (list.next r) with
      last := if list.next r = none then some p else list.last
      count := list.count - 1 }

end ILSinglyLinkedList

def ilSinglyLinkedListAppend (list : ILSinglyLinkedList) (data : Ptr) :
    Option (ILSinglyLinkedList × Int) :=
  if list.count = 2147483647 then none
  else
    some ({ (list.alloc data).addLast list.fresh with count := list.count + 1 }, list.count)

/-- The `while` of `ILSinglyLinkedListGetAt` counts `index` down. -/
def getAtLoop (list : ILSinglyLinkedList) : Nat → Option Nat → Ptr
  | _, none => nullPtr
  | 0, some r => list.data r
  | index + 1, some r => getAtLoop list index (some r)

def ilSinglyLinkedListGetAt (list : ILSinglyLinkedList) (index : Int) : Ptr :=
  if index < 0 then nullPtr
  else if list.count ≤ index then nullPtr
  else getAtLoop list index.toNat list.first

def ilSinglyLinkedListFind (list : ILSinglyLinkedList) (data : Ptr) : Option (Option Nat) :=
  seek list.next (fun r => list.data r = data) list.fresh list.first

def reverseFindLoop (list : ILSinglyLinkedList) (data : Ptr) :
    Nat → Option Nat → Option Nat → Option (Option Nat)
  | _, none, found => some found
  | 0, some _, _ => none
  | fuel + 1, some r, found =>
    reverseFindLoop list data fuel (list.next r) (if list.data r = data then some r else found)

def ilSinglyLinkedListReverseFind (list : ILSinglyLinkedList) (data : Ptr) :
    Option (Option Nat) :=
  reverseFindLoop list data list.fresh list.first none

/-- The loop of both removals: the first entry that passes the test goes. -/
def removeLoop (list : ILSinglyLinkedList) (test : Nat → Ptr → Bool) :
    Nat → Option Nat → Option Nat → Nat → Option (ILSinglyLinkedList × Int)
  | _, _, none, _ => some (list, -1)
  | 0, _, some _, _ => none
  | fuel + 1, prev, some r, index =>
    if test index (list.data r) then some (list.unlink prev r, index)
    else removeLoop list test fuel (some r) (list.next r) (index + 1)

def ilSinglyLinkedListRemove (list : ILSinglyLinkedList) (data : Ptr) :
    Option (ILSinglyLinkedList × Int) :=
  removeLoop list (fun _ elem => elem = data) list.fresh none list.first 0

def ilSinglyLinkedListRemoveAt (list : ILSinglyLinkedList) (index : Int) :
    Option (ILSinglyLinkedList × Int) :=
  if index < 0 then some (list, -1)
  else if list.count ≤ index then some (list, -1)
  else removeLoop list (fun count _ => (count : Int) = index) list.fresh none list.first 0

def walkLoop (callback : ILListWalkCallback σ) :
    Nat → Option Nat → Nat → ILSinglyLinkedList → σ → Option (ILSinglyLinkedList × Nat × σ)
  | _, none, count, list, state => some (list, count, state)
  | 0, some _, _, _, _ => none
  | fuel + 1, some r, count, list, state =>
    let next := list.next r
    let (more, data, state) := callback state (list.data r)
    if more then walkLoop callback fuel next (count + 1) (list.setData r data) state
    else some (list.setData r data, count + 1, state)

def ilSinglyLinkedListWalk (list : ILSinglyLinkedList) (callback : ILListWalkCallback σ)
    (state : σ) : Option (ILSinglyLinkedList × Nat × σ) :=
  walkLoop callback list.fresh list.first 0 list state

/-! ### Operations -/

/-- What a program can do with an `ILList`. A find leads to an element, which is then set. -/
inductive ListOp (σ : Type) where
  | append (data : Ptr)
  | remove (data : Ptr)
  | removeAt (index : Int)
  | getAt (index : Int)
  | find (data value : Ptr)
  | reverseFind (data value : Ptr)
  | walk (callback : ILListWalkCallback σ) (state : σ)

inductive ListResult (σ : Type) where
  | index (index : Int)
  | data (data : Ptr)
  | found (found : Bool)
  | walked (count : Nat) (state : σ)

def ILArrayList.setFound (list : ILArrayList) (value : Ptr) :
    Option Nat → Option (ILArrayList × ListResult σ)
  | some i => (list.array.store i value).map fun array => ({ list with array := array }, .found true)
  | none => some (list, .found false)

def ilArrayListRun (garbage : Garbage) (list : ILArrayList) :
    ListOp σ → Option (ILArrayList × ListResult σ)
  | .append data => (ilArrayListAppend garbage list data).map fun r => (r.1, .index r.2)
  | .remove data => (ilArrayListRemove list data).map fun r => (r.1, .index r.2)
  | .removeAt index => (ilArrayListRemoveAt list index).map fun r => (r.1, .index r.2)
  | .getAt index => (ilArrayListGetAt list index).map fun data => (list, .data data)
  | .find data value => (ilArrayListFind list data).bind (list.setFound value)
  | .reverseFind data value => (ilArrayListReverseFind list data).bind (list.setFound value)
  | .walk callback state =>
    (ilArrayListWalk list callback state).map fun r => (r.1, .walked r.2.1 r.2.2)

def ILSinglyLinkedList.setFound (list : ILSinglyLinkedList) (value : Ptr) :
    Option Nat → ILSinglyLinkedList × ListResult σ
  | some r => (list.setData r value, .found true)
  | none => (list, .found false)

def ilSinglyLinkedListRun (list : ILSinglyLinkedList) :
    ListOp σ → Option (ILSinglyLinkedList × ListResult σ)
  | .append data => (ilSinglyLinkedListAppend list data).map fun r => (r.1, .index r.2)
  | .remove data => (ilSinglyLinkedListRemove list data).map fun r => (r.1, .index r.2)
  | .removeAt index => (ilSinglyLinkedListRemoveAt list index).map fun r => (r.1, .index r.2)
  | .getAt index => some (list, .data (ilSinglyLinkedListGetAt list index))
  | .find data value => (ilSinglyLinkedListFind list data).map (list.setFound value)
  | .reverseFind data value => (ilSinglyLinkedListReverseFind list data).map (list.setFound value)
  | .walk callback state =>
    (ilSinglyLinkedListWalk list callback state).map fun r => (r.1, .walked r.2.1 r.2.2)

/-! ### The sequence -/

/-- Where an element is for the last time. -/
def lastIdxOf? (data : Ptr) : List Ptr → Option Nat
  | [] => none
  | elem :: elems =>
    match lastIdxOf? data elems with
    | some i => some (i + 1)
    | none => if elem = data then some 0 else none

/-- The elements after a walk, how many were shown, and the state it ended in. -/
def walkElems (callback : ILListWalkCallback σ) : σ → List Ptr → List Ptr × Nat × σ
  | state, [] => ([], 0, state)
  | state, elem :: elems =>
    let (more, data, state) := callback state elem
    if more then
      let (elems, count, state) := walkElems callback state elems
      (data :: elems, count + 1, state)
    else (data :: elems, 1, state)

def setIdx (elems : List Ptr) (value : Ptr) : Option Nat → List Ptr × ListResult σ
  | some i => (elems.set i value, .found true)
  | none => (elems, .found false)

def removeIdx (elems : List Ptr) : Option Nat → List Ptr × ListResult σ
  | some i => (elems.eraseIdx i, .index i)
  | none => (elems, .index (-1))

/-- The position of an index, if it is one. -/
def idxAt? (elems : List Ptr) (index : Int) : Option Nat :=
  if 0 ≤ index ∧ index < elems.length then some index.toNat else none

def ListOp.apply (elems : List Ptr) : ListOp σ → List Ptr × ListResult σ
  | append data => (elems ++ [data], .index elems.length)
  | remove data => removeIdx elems (elems.idxOf? data)
  | removeAt index => removeIdx elems (idxAt? elems index)
  | getAt index => (elems, .data (((idxAt? elems index).bind (elems[·]?)).getD nullPtr))
  | find data value => setIdx elems value (elems.idxOf? data)
  | reverseFind data value => setIdx elems value (lastIdxOf? data elems)
  | walk callback state =>
    let (elems, count, state) := walkElems callback state elems
    (elems, .walked count state)

/-- The elements after a removed one can take its place: they are all alike, at most eight
of them, and agree with it in the bytes that are not copied. -/
def Shifts (removed : Ptr) (rest : List Ptr) : Prop :=
  rest.length ≤ 8 ∧ ∀ elem ∈ rest, (∀ elem' ∈ rest, elem' = elem) ∧
    ∀ k : Fin 8, rest.length ≤ k.val → removed k = elem k

/-- When an array list of some capacity does what is asked of it. -/
def arrayMeets (capacity : Nat) (elems : List Ptr) : ListOp σ → Prop
  | .append _ => elems.length < capacity
  | .remove _ => False
  | .removeAt index => ∀ i removed, idxAt? elems index = some i → elems[i]? = some removed →
      Shifts removed (elems.drop (i + 1))
  | _ => True

/-- When a linked list does. -/
def linkedMeets (elems : List Ptr) : ListOp σ → Prop
  | .append _ => elems.length < 2147483647
  | .getAt index => ∀ i, idxAt? elems index = some i → elems[i]? = elems[0]?
  | _ => True

end Pnet.Support
