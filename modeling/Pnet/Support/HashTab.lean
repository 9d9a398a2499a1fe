import Pnet.Lib.Chain

/-! The hash tables of `support/hashtab.c`: `size` entries, each with a chain of
overflow entries that come out of blocks of `size` entries. Elements are pointers other
than null, of which a program only asks whether two are the same. Allocation is taken to
succeed; what `freeFunc` does to an element is outside the table. -/
namespace Pnet.Support
open Pnet.Lib

/-- An entry of the main table, or one of an overflow block. -/
inductive EntryRef where
  | table (hash : Nat)
  | block (id posn : Nat)
deriving DecidableEq, Repr

structure ILHashEntry (α : Type) where
  elem : Option α
  overflow : Option EntryRef

/-- `entry` is the memory of the main table and of the blocks; `overflow` lists the
blocks, newest first. -/
structure ILHashTable (α : Type) where
  size : Nat
  entry : EntryRef → ILHashEntry α
  overflow : List Nat
  overflowPosn : Nat

variable {α κ : Type}

namespace ILHashTable

def setEntry (t : ILHashTable α) (r : EntryRef) (entry : ILHashEntry α) : ILHashTable α :=
  { t with entry := Function.update t.entry r entry }

def setElem (t : ILHashTable α) (r : EntryRef) (elem : Option α) : ILHashTable α :=
  t.setEntry r { t.entry r with elem := elem }

def next (t : ILHashTable α) (r : EntryRef) : Option EntryRef := (t.entry r).overflow

/-- The entries there are: no chain of them is longer. -/
def numEntries (t : ILHashTable α) : Nat := t.size * t.overflow.length + 1

def bucket (t : ILHashTable α) (hash : Nat) : Nat := hash % t.size

/-- The first entry of a chain that holds an element of a kind. -/
def seekElem (t : ILHashTable α) (test : α → Bool) (start : Option EntryRef) :
    Option (Option EntryRef) :=
  seek t.next (fun r => (t.entry r).elem.any test) t.numEntries start

end ILHashTable

def ilHashCreate (α : Type) (size : Nat) : ILHashTable α :=
  let size := if size = 0 then 509 else size
  ⟨size, fun _ => ⟨none, none⟩, [], size⟩

def ilHashAdd (computeFunc : α → Nat) (t : ILHashTable α) (elem : α) : ILHashTable α :=
  let hash := EntryRef.table (t.bucket (computeFunc elem))
  if (t.entry hash).elem = none then t.setElem hash (some elem)
  else
    let link (t : ILHashTable α) (r : EntryRef) : ILHashTable α :=
      (t.setEntry r ⟨some elem, t.next hash⟩).setEntry hash { t.entry hash with overflow := some r }
    if t.overflowPosn < t.size then
      link { t with overflowPosn := t.overflowPosn + 1 }
        (.block (t.overflow.headD 0) t.overflowPosn)
    else
      link { t with overflow := t.overflow.length :: t.overflow, overflowPosn := 1 }
        (.block t.overflow.length 0)

/-- The outer `none` is a walk that does not end. -/
def ilHashFindAlt (t : ILHashTable α) (key : κ) (keyComputeFunc : κ → Nat)
    (matchFunc : α → κ → Bool) : Option (Option α) :=
  match t.seekElem (matchFunc · key) (some (.table (t.bucket (keyComputeFunc key)))) with
  | some (some r) => some (t.entry r).elem
  | some none => some none
  | none => none

def ilHashRemove [DecidableEq α] (computeFunc : α → Nat) (t : ILHashTable α) (elem : α) :
    Option (ILHashTable α) :=
  match t.seekElem (· = elem) (some (.table (t.bucket (computeFunc elem)))) with
  | some (some r) => some (t.setElem r none)
  | some none => some t
  | none => none

def clearChain (pred : α → Bool) :
    Nat → Option EntryRef → ILHashTable α → Option (ILHashTable α)
  | _, none, t => some t
  | 0, some _, _ => none
  | fuel + 1, some r, t =>
    let t := if (t.entry r).elem.any pred then t.setElem r none else t
    clearChain pred fuel (t.next r) t

/-- The loop over `hash`, of which `count` rounds are left. -/
def clearBuckets (pred : α → Bool) : Nat → Nat → ILHashTable α → Option (ILHashTable α)
  | 0, _, t => some t
  | count + 1, hash, t =>
    match clearChain pred t.numEntries (some (.table hash)) t with
    | some t => clearBuckets pred count (hash + 1) t
    | none => none

def ilHashRemoveSubset (t : ILHashTable α) (matchFunc : α → κ → Bool) (key : κ) :
    Option (ILHashTable α) :=
  clearBuckets (matchFunc · key) t.size 0 t

/-! ### Iteration -/

structure ILHashIter where
  index : Int
  entry : Option EntryRef

def ilHashIterInit : ILHashIter := ⟨-1, none⟩

/-- The `for(;;)` of `ILHashIterNext`, of which `rounds` are left to take. -/
def ilHashIterNext (t : ILHashTable α) : Nat → ILHashIter → Option (Option α × ILHashIter)
  | 0, _ => none
  | rounds + 1, iter =>
    let advanced : ILHashIter :=
      if iter.entry = none then ⟨iter.index + 1, some (.table (iter.index + 1).toNat)⟩ else iter
    if iter.entry = none ∧ t.size ≤ advanced.index then some (none, ⟨advanced.index, none⟩)
    else
      match t.seekElem (fun _ => true) advanced.entry with
      | some (some r) => some ((t.entry r).elem, ⟨advanced.index, t.next r⟩)
      | some none => ilHashIterNext t rounds ⟨advanced.index, none⟩
      | none => none

/-- Call `ILHashIterNext` until it gives nothing. -/
def ilHashIterAll (t : ILHashTable α) : Nat → ILHashIter → Option (List α)
  | 0, _ => none
  | calls + 1, iter =>
    match ilHashIterNext t (t.size + 2) iter with
    | some (some elem, iter) => (ilHashIterAll t calls iter).map (elem :: ·)
    | some (none, _) => some []
    | none => none

end Pnet.Support
