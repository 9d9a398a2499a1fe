import Pnet.CTypes
import Pnet.Lib.Probe

/-! The mutexes of `support/wait_mutex.c`, and the table of those that a thread owns. -/
namespace Pnet.Support.WaitMutex
open Pnet.Lib

/-- `SIZEOF_VOID_P` -/
inductive PointerSize where
  | four | eight
deriving DecidableEq, Repr

def PointerSize.bits : PointerSize → Nat
  | four => 32
  | eight => 64

/-- How far an address is shifted before it is hashed. -/
def PointerSize.shift : PointerSize → Nat
  | four => 2
  | eight => 3

abbrev Address (size : PointerSize) := BitVec size.bits

inductive Fault where
  | outOfBounds (index : Int)
  | endless
deriving DecidableEq, Repr

variable {size : PointerSize}

/-! ### The table -/

/-- A null cell is empty, and a table that is null has no cells yet. Its capacity is the number of
its cells. -/
structure ILWakeup (size : PointerSize) where
  ownedMutexesCount : Nat := 0
  ownedMutexes : Option (List (Address size)) := none
deriving DecidableEq, Repr

/-- An address as an `int`. -/
def hash (mutex : Address size) : Int := ((mutex.sshiftRight size.shift).setWidth 32).toInt

/-- The remainder of a negative number is not positive. -/
def firstBucket (mutex : Address size) (capacity : Nat) : Except Fault Nat :=
  let i := (hash mutex).tmod capacity
  if i < 0 then .error (.outOfBounds i) else .ok i.toNat

/-- When no cell is empty, the search has no end. -/
def emptyBucket (mutex : Address size) (cells : List (Address size)) : Except Fault Nat := do
  let i ← firstBucket mutex cells.length
  match probe (fun j => cells.getD j 0 == 0) cells.length cells.length i with
  | some j => .ok j
  | none => .error .endless

def primeNumbers : List Nat := [13, 29, 61, 127, 257, 521]

/-- From the last prime number to the first; `next` is the one after it. -/
def pickPrime : List (Nat × Option Nat) → Nat → Nat
  | [], newCapacity => newCapacity
  | (prime, next) :: rest, newCapacity =>
    if prime < newCapacity then
      match next with
      | some next => pickPrime rest next
      | none => newCapacity
    else pickPrime rest newCapacity

def grownCapacity (capacity : Nat) : Nat :=
  pickPrime (primeNumbers.zip (primeNumbers.tail.map some ++ [none])).reverse (capacity * 2)

/-- Each entry of the old table puts `mutex` in the new one. -/
def rehash (mutex : Address size) (newArray : List (Address size)) :
    List (Address size) → Except Fault (List (Address size))
  | [] => .ok newArray
  | old :: rest =>
    if old = 0 then rehash mutex newArray rest
    else do
      let x ← emptyBucket old newArray
      rehash mutex (newArray.set x mutex) rest

def ILWakeup.put (wakeup : ILWakeup size) (mutex : Address size) (cells : List (Address size)) :
    Except Fault (ILWakeup size) := do
  let i ← emptyBucket mutex cells
  .ok ⟨wakeup.ownedMutexesCount + 1, some (cells.set i mutex)⟩

/-- The cells of the table, which is allocated when there is none. -/
def ILWakeup.cells (wakeup : ILWakeup size) : List (Address size) :=
  wakeup.ownedMutexes.getD (List.replicate 13 0)

def maxInt32 : Nat := 2 ^ 31 - 1

def addMutexToWakeup (mutex : Address size) (wakeup : ILWakeup size) :
    Except Fault (ILWakeup size) :=
  let cells := wakeup.cells
  if cells.length ≤ wakeup.ownedMutexesCount then
    if maxInt32 / 2 ≤ cells.length then .ok { wakeup with ownedMutexes := some cells }
    else do
      let newArray ← rehash mutex (List.replicate (grownCapacity cells.length) 0) cells
      wakeup.put mutex newArray
  else wakeup.put mutex cells

/-- All the cells are searched when the mutex is not in the table. -/
def removeMutexFromWakeup (mutex : Address size) (wakeup : ILWakeup size) :
    Except Fault (ILWakeup size) :=
  match wakeup.ownedMutexes with
  | none => .ok wakeup
  | some cells => do
    let i ← firstBucket mutex cells.length
    match probe (fun j => cells.getD j 0 == mutex) cells.length cells.length i with
    | some j => .ok ⟨wakeup.ownedMutexesCount - 1, some (cells.set j 0)⟩
    | none => .ok wakeup

/-! ### Mutexes -/

/-- The thread that the table is of, or another. -/
inductive Owner (T : Type) where
  | self
  | other (t : T)
deriving DecidableEq, Repr

structure ILWaitMutex (T : Type) where
  owner : Option (Owner T)
  count : Nat
deriving DecidableEq, Repr

/-- The mutexes that there are, the list of their names, and the table of the thread. -/
structure Mutexes (T N : Type) (size : PointerSize) where
  mutex : Address size → Option (ILWaitMutex T)
  nameList : List (N × Address size)
  wakeup : ILWakeup size

variable {T N : Type} [DecidableEq N]

def Mutexes.start : Mutexes T N size := ⟨fun _ => none, [], {}⟩

namespace Mutexes

variable (s : Mutexes T N size)

def setMutex (mutex : Address size) (value : ILWaitMutex T) : Mutexes T N size :=
  { s with mutex := Function.update s.mutex mutex (some value) }

/-- The thread becomes the owner of a mutex, and puts it in its table. -/
def own (mutex : Address size) : Except Fault (Mutexes T N size) := do
  let wakeup ← addMutexToWakeup mutex s.wakeup
  .ok { s.setMutex mutex ⟨some .self, 1⟩ with wakeup := wakeup }

/-- The thread takes the mutex out of its table, and the mutex goes to the thread `next` of its
queue that has been woken. -/
def handOver (mutex : Address size) (next : Option T) : Except Fault (Mutexes T N size) := do
  let wakeup ← removeMutexFromWakeup mutex s.wakeup
  .ok { s.setMutex mutex ⟨next.map .other, if next.isSome then 1 else 0⟩ with wakeup := wakeup }

/-- The part of `MutexUnregister` after the queue. -/
def mutexUnregister (mutex : Address size) (release : Bool) (next : Option T) :
    Except Fault (Mutexes T N size) :=
  match s.mutex mutex with
  | some ⟨some .self, count⟩ =>
    if release then
      if count - 1 = 0 then s.handOver mutex next
      else .ok (s.setMutex mutex ⟨some .self, count - 1⟩)
    else if count = 1 then do
      let wakeup ← addMutexToWakeup mutex s.wakeup
      .ok { s with wakeup := wakeup }
    else .ok s
  | _ => .ok s

/-- How a wait for a mutex that another thread owns ends: it is not queued; or the other thread
gives the mutex to this one; or there is a time-out or an interrupt, even when the mutex is given
to this thread before it sees that. -/
inductive Wait where
  | failed
  | granted
  | ended (given : Bool)
deriving DecidableEq, Repr

/-- `interrupted` when the thread sees, after it has got the mutex, that it was interrupted or
aborted; `next` is the thread that gets the mutex when this one gives it up. -/
structure WaitOutcome (T : Type) where
  entered : Bool := true
  wait : Wait := .ended false
  interrupted : Bool := false
  next : Option T := none
deriving Repr

def leaveWaitHandle (mutex : Address size) (outcome : WaitOutcome T) :
    Except Fault (Mutexes T N size) :=
  if outcome.interrupted then s.mutexUnregister mutex true outcome.next else .ok s

/-- Whether the handle is acquired, and what is left. -/
def ilWaitOne (mutex : Address size) (outcome : WaitOutcome T) :
    Except Fault (Bool × Mutexes T N size) :=
  let acquired := !outcome.interrupted
  match s.mutex mutex, outcome.entered with
  | none, _ | _, false => .ok (false, s)
  | some ⟨none, _⟩, true => do
    let s ← s.own mutex
    let s ← s.leaveWaitHandle mutex outcome
    .ok (acquired, s)
  | some ⟨some .self, count⟩, true => do
    let s ← (s.setMutex mutex ⟨some .self, count + 1⟩).leaveWaitHandle mutex outcome
    .ok (acquired, s)
  | some ⟨some (.other _), _⟩, true =>
    match outcome.wait with
    | .failed => .ok (false, s)
    | .granted => do
      let s ← (s.setMutex mutex ⟨some .self, 1⟩).mutexUnregister mutex false none
      let s ← s.leaveWaitHandle mutex outcome
      .ok (acquired, s)
    | .ended given => do
      let s ← (if given then s.setMutex mutex ⟨some .self, 1⟩ else s).mutexUnregister mutex true
        outcome.next
      .ok (false, s)

/-- `mutex` is the memory that is allocated. -/
def ilWaitMutexCreate (mutex : Address size) (initiallyOwned : Bool) :
    Except Fault (Mutexes T N size) :=
  if initiallyOwned then s.own mutex else .ok (s.setMutex mutex ⟨none, 0⟩)

def findName (name : N) : Option (Address size) :=
  (s.nameList.find? fun entry => entry.1 = name).map Prod.snd

/-- The handle, whether the thread got its ownership, and what is left. A mutex that has the name
already is used again; `outcome` is that of the wait for it. -/
def ilWaitMutexNamedCreate (name : Option N) (mutex : Address size) (initiallyOwned : Bool)
    (outcome : WaitOutcome T) : Except Fault (Address size × Bool × Mutexes T N size) :=
  match name with
  | none => do
    let s ← s.ilWaitMutexCreate mutex initiallyOwned
    .ok (mutex, initiallyOwned, s)
  | some name =>
    match s.findName name with
    | some found =>
      if initiallyOwned then do
        let (owned, s) ← s.ilWaitOne found outcome
        let wakeup ← addMutexToWakeup found s.wakeup
        .ok (found, owned, { s with wakeup := wakeup })
      else .ok (found, false, s)
    | none => do
      let s ← s.ilWaitMutexCreate mutex initiallyOwned
      .ok (mutex, initiallyOwned, { s with nameList := (name, mutex) :: s.nameList })

inductive ReleaseResult where
  | fail | success | stillOwns
deriving DecidableEq, Repr

/-- A mutex that this thread does not own is left alone. -/
def ilWaitMutexRelease (mutex : Address size) (next : Option T) :
    Except Fault (ReleaseResult × Mutexes T N size) :=
  match s.mutex mutex with
  | some ⟨some .self, count⟩ =>
    if count - 1 = 0 then do
      let s ← s.handOver mutex next
      .ok (.success, s)
    else .ok (.stillOwns, s.setMutex mutex ⟨some .self, count - 1⟩)
  | _ => .ok (.fail, s)

end Mutexes

/-! ### Calls -/

/-- The calls of the thread, and what other threads do with a mutex that it does not own. -/
inductive Call (T N : Type) (size : PointerSize) where
  | create (mutex : Address size) (initiallyOwned : Bool)
  | namedCreate (name : Option N) (mutex : Address size) (initiallyOwned : Bool)
      (outcome : Mutexes.WaitOutcome T)
  | waitOne (mutex : Address size) (outcome : Mutexes.WaitOutcome T)
  | release (mutex : Address size) (next : Option T)
  | others (mutex : Address size) (owner : Option T) (count : Nat)

namespace Mutexes

def call (s : Mutexes T N size) : Call T N size → Except Fault (Mutexes T N size)
  | .create mutex initiallyOwned => s.ilWaitMutexCreate mutex initiallyOwned
  | .namedCreate name mutex initiallyOwned outcome => do
    let (_, _, s) ← s.ilWaitMutexNamedCreate name mutex initiallyOwned outcome
    .ok s
  | .waitOne mutex outcome => do
    let (_, s) ← s.ilWaitOne mutex outcome
    .ok s
  | .release mutex next => do
    let (_, s) ← s.ilWaitMutexRelease mutex next
    .ok s
  | .others mutex owner count =>
    match s.mutex mutex with
    | some ⟨some .self, _⟩ | none => .ok s
    | some _ => .ok (s.setMutex mutex ⟨owner.map .other, count⟩)

/-- Memory that is allocated is not null, and no mutex is there yet. -/
def Possible (s : Mutexes T N size) : Call T N size → Prop
  | .create mutex _ | .namedCreate _ mutex _ _ => mutex ≠ 0 ∧ s.mutex mutex = none
  | _ => True

end Mutexes

end Pnet.Support.WaitMutex
