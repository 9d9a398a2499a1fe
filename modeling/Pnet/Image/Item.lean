import Pnet.Lib.Chain

/-! The links between program items, `image/item.c`: `attrsOrLink` points to the
attributes of an item or, once the item is linked, to a link record that carries them.
A record is never freed, so records are numbered. Allocation is taken to succeed; a walk
takes `fuel` steps at most, and the result `none` is a walk that takes more or a pointer
that does not lead to a record. -/
namespace Pnet.Image
open Pnet.Lib

variable {I A : Type}

/-- `attrsOrLink`, with the bit `linked` that says which of the two it is. -/
inductive AttrsOrLink (A : Type) where
  | attrs (first : Option A)
  | link (r : Nat)

structure ILProgramItemLink (I A : Type) where
  customAttrs : Option A
  linkedItem : Option I
  next : Option Nat

/-- The memory that items `I` and attributes `A` are in. -/
structure Items (I A : Type) where
  item : I → AttrsOrLink A
  link : Nat → ILProgramItemLink I A
  freshLink : Nat
  owner : A → Option I
  nextAttr : A → Option A

namespace Items

def init (I A : Type) : Items I A :=
  ⟨fun _ => .attrs none, fun _ => ⟨none, none, none⟩, 0, fun _ => none, fun _ => none⟩

variable (s : Items I A)

def nextLink (r : Nat) : Option Nat := (s.link r).next

def linkedItem (r : Nat) : Option I := (s.link r).linkedItem

/-- `((ILProgramItemLink *)(item->attrsOrLink))` -/
def linkOf (item : I) : Option Nat :=
  match s.item item with
  | .attrs _ => none
  | .link r => some r

def setLink (r : Nat) (link : ILProgramItemLink I A) : Items I A :=
  { s with link := Function.update s.link r link }

def setLinkedItem (r : Nat) (linkedItem : Option I) : Items I A :=
  s.setLink r { s.link r with linkedItem := linkedItem }

def setNextLink (r : Nat) (next : Option Nat) : Items I A :=
  s.setLink r { s.link r with next := next }

def setCustomAttrs (r : Nat) (customAttrs : Option A) : Items I A :=
  s.setLink r { s.link r with customAttrs := customAttrs }

def alloc (link : ILProgramItemLink I A) : Items I A :=
  { s.setLink s.freshLink link with freshLink := s.freshLink + 1 }

def setNextAttr [DecidableEq A] (attr : A) (next : Option A) : Items I A :=
  { s with nextAttr := Function.update s.nextAttr attr next }

def setOwner [DecidableEq A] (attr : A) (owner : I) : Items I A :=
  { s with owner := Function.update s.owner attr (some owner) }

variable [DecidableEq I]

def setItem (item : I) (attrsOrLink : AttrsOrLink A) : Items I A :=
  { s with item := Function.update s.item item attrsOrLink }

/-- Give an item that is not linked yet its link record. -/
def newLink (item : I) (first : Option A) (linkedItem : Option I) : Items I A :=
  (s.alloc ⟨first, linkedItem, none⟩).setItem item (.link s.freshLink)

end Items

/-! ### Attributes -/

/-- `while(temp->next != 0) temp = temp->next;` -/
def lastAttr (s : Items I A) : Nat → A → Option A
  | 0, _ => none
  | fuel + 1, temp =>
    match s.nextAttr temp with
    | none => some temp
    | some next => lastAttr s fuel next

def ilProgramItemAddAttribute [DecidableEq I] [DecidableEq A] (fuel : Nat) (s : Items I A)
    (item : I) (attr : A) : Option (Items I A) :=
  let s := (s.setOwner attr item).setNextAttr attr none
  match s.item item with
  | .attrs none => some (s.setItem item (.attrs (some attr)))
  | .attrs (some first) => (lastAttr s fuel first).map fun temp => s.setNextAttr temp (some attr)
  | .link link =>
    match (s.link link).customAttrs with
    | none => some (s.setCustomAttrs link (some attr))
    | some first => (lastAttr s fuel first).map fun temp => s.setNextAttr temp (some attr)

/-! ### Links -/

variable [DecidableEq I]

/-- Zero the first of the reverse links from `start` that leads to the item. -/
def clearReverse (fuel : Nat) (s : Items I A) (item : I) (start : Option Nat) :
    Option (Items I A) :=
  match seek s.nextLink (fun r => s.linkedItem r = some item) fuel start with
  | none => none
  | some none => some s
  | some (some link2) => some (s.setLinkedItem link2 none)

/-- Remove the link from an item, which is in the record `link`: its reverse link. -/
def removeCurrent (fuel : Nat) (s : Items I A) (item : I) (link : Nat) : Option (Items I A) :=
  match s.linkedItem link with
  | none => some s
  | some linkedItem =>
    match s.linkOf linkedItem with
    | none => none
    | some link2 => clearReverse fuel s item (s.nextLink link2)

/-- Use the first free reverse link after the record `link`, or append a new one. -/
def addReverse (s : Items I A) (item1 : I) : Nat → Nat → Option (Items I A)
  | 0, _ => none
  | fuel + 1, link =>
    match s.nextLink link with
    | none => some ((s.alloc ⟨none, some item1, none⟩).setNextLink link (some s.freshLink))
    | some link2 =>
      if s.linkedItem link2 = none then some (s.setLinkedItem link2 (some item1))
      else addReverse s item1 fuel link2

/-- `_ILProgramItemLink`, "Create the link from item1 to item2". -/
def linkForward (fuel : Nat) (s : Items I A) (item1 item2 : I) : Option (Items I A) :=
  match s.item item1 with
  | .attrs first => some (s.newLink item1 first (some item2))
  | .link link => (removeCurrent fuel s item1 link).map (·.setLinkedItem link (some item2))

/-- "Create the reverse link from item2 to item1". -/
def linkReverse (fuel : Nat) (s : Items I A) (item1 item2 : I) : Option (Items I A) :=
  match s.item item2 with
  | .attrs first => addReverse (s.newLink item2 first none) item1 fuel s.freshLink
  | .link link => addReverse s item1 fuel link

def ilProgramItemLink (fuel : Nat) (s : Items I A) (item1 item2 : I) : Option (Items I A) :=
  if item1 = item2 then some s
  else do
    let s ← linkForward fuel s item1 item2
    linkReverse fuel s item1 item2

/-- `while(link != 0)`: the items that link here are read without a check. -/
def unlinkAll : Nat → Items I A → Option Nat → Option (Items I A)
  | _, s, none => some s
  | 0, _, some _ => none
  | fuel + 1, s, some link => do
    let linkedItem ← s.linkedItem link
    let link2 ← s.linkOf linkedItem
    let s := (s.setLinkedItem link2 none).setLinkedItem link none
    unlinkAll fuel s (s.nextLink link)

def ilProgramItemUnlink (fuel : Nat) (s : Items I A) (item : I) : Option (Items I A) :=
  match s.item item with
  | .attrs _ => some s
  | .link link => do
    let s ← (removeCurrent fuel s item link).map fun s' =>
      if s.linkedItem link = none then s' else s'.setLinkedItem link none
    unlinkAll fuel s (s.nextLink link)

omit [DecidableEq I] in
def ilProgramItemLinkedTo (s : Items I A) (item : I) : Option I :=
  match s.item item with
  | .attrs _ => none
  | .link link => s.linkedItem link

omit [DecidableEq I] in
def ilProgramItemLinkedBackTo {Im : Type} [DecidableEq Im] (imageOf : I → Im) (fuel : Nat)
    (s : Items I A) (item : I) (image : Im) : Option (Option I) :=
  match s.item item with
  | .attrs _ => some none
  | .link link =>
    (seek s.nextLink (fun r => (s.linkedItem r).any fun from1 => imageOf from1 = image) fuel
      (s.nextLink link)).map fun found => found.bind s.linkedItem

omit [DecidableEq I] in
def ilProgramItemResolve (s : Items I A) : Nat → I → Option I
  | 0, _ => none
  | fuel + 1, item =>
    match ilProgramItemLinkedTo s item with
    | none => some item
    | some newItem => ilProgramItemResolve s fuel newItem

/-! ### Runs -/

inductive ItemOp (I A : Type) where
  | link (item1 item2 : I)
  | unlink (item : I)
  | addAttribute (item : I) (attr : A)
deriving DecidableEq

variable [DecidableEq A]

def ItemOp.apply (fuel : Nat) (s : Items I A) : ItemOp I A → Option (Items I A)
  | .link item1 item2 => ilProgramItemLink fuel s item1 item2
  | .unlink item => ilProgramItemUnlink fuel s item
  | .addAttribute item attr => ilProgramItemAddAttribute fuel s item attr

def runItems (fuel : Nat) (ops : List (ItemOp I A)) : Option (Items I A) :=
  ops.foldlM (ItemOp.apply fuel) (.init I A)

end Pnet.Image
