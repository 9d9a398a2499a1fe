import Mathlib.Data.List.Basic

/-! The lock-free list of `support/interlocked_slist.c`, with any number of threads that
append elements to one list and take them from it. A thread is at the next access that it
makes to the memory they share, and each access is one atomic step. -/
namespace Pnet.Support.InterlockedSList

/-- The places of a `next` pointer: `&(head->head)`, `&(head->tail)` and the elements `E`. -/
inductive Ptr (E : Type) where
  | head
  | tail
  | elem (e : E)
deriving DecidableEq, Repr

/-- The next access of a thread, with its local variables. -/
inductive ThreadState (E : Type) where
  | idle
  -- ILInterlockedSListAppend
  | storeNext (elem : E)
  | exchangeTail (elem : E)
  | linkPrev (elem : E) (prevTail : Ptr E)
  -- ILInterlockedSListGet
  | loadHead
  | loadNext (prevHead : Ptr E)
  | casHead (prevHead nextHead : Ptr E)
  | casTail (prevHead : Ptr E)
  | waitNext (prevHead : Ptr E)
  | storeHead (prevHead nextHead : Ptr E)
deriving DecidableEq, Repr

/-- The memory and the threads, and the logs of what has happened: the calls of
`ILInterlockedSListAppend`, the elements in the order of their exchanges of the tail, what was
removed from the head, and what the calls of `ILInterlockedSListGet` returned. -/
structure SList (T E : Type) where
  next : Ptr E → Ptr E
  thread : T → ThreadState E
  called : List (T × E)
  exchanged : List E
  taken : List (Ptr E)
  returned : List (T × Option (Ptr E))

variable {T E : Type} [DecidableEq T] [DecidableEq E]

namespace SList

def setNext (s : SList T E) (p value : Ptr E) : SList T E :=
  { s with next := Function.update s.next p value }

def setThread (s : SList T E) (t : T) (state : ThreadState E) : SList T E :=
  { s with thread := Function.update s.thread t state }

/-- The end of a call of `ILInterlockedSListGet`. -/
def ret (s : SList T E) (t : T) (result : Option (Ptr E)) : SList T E :=
  { s.setThread t .idle with returned := s.returned ++ [(t, result)] }

end SList

/-- `ILInterlockedSListHead_Init`, in a memory with any content. -/
def ilInterlockedSListHeadInit (memory : Ptr E → Ptr E) : SList T E :=
  ⟨Function.update (Function.update memory .head .tail) .tail .head, fun _ => .idle, [], [], [], []⟩

/-- `ILInterlockedSList_IsEmpty` -/
def ilInterlockedSListIsEmpty (s : SList T E) : Bool := s.next .head = .tail

/-- One access of a thread. -/
def exec (s : SList T E) (t : T) : SList T E :=
  match s.thread t with
  | .idle => s
  | .storeNext elem => (s.setNext (.elem elem) .tail).setThread t (.exchangeTail elem)
  | .exchangeTail elem =>
    { (s.setNext .tail (.elem elem)).setThread t (.linkPrev elem (s.next .tail)) with
      exchanged := s.exchanged ++ [elem] }
  | .linkPrev elem prevTail => (s.setNext prevTail (.elem elem)).setThread t .idle
  | .loadHead =>
    let prevHead := s.next .head
    if prevHead ≠ .tail then s.setThread t (.loadNext prevHead)
    else s.ret t none
  | .loadNext prevHead => s.setThread t (.casHead prevHead (s.next prevHead))
  | .casHead prevHead nextHead =>
    if s.next .head = prevHead then
      -- We removed the head element successfully
      let s := { s.setNext .head nextHead with taken := s.taken ++ [prevHead] }
      if nextHead = .tail then s.setThread t (.casTail prevHead)
      else s.ret t (some prevHead)
    else s.setThread t .loadHead
  | .casTail prevHead =>
    if s.next .tail = prevHead then (s.setNext .tail .head).ret t (some prevHead)
    else s.setThread t (.waitNext prevHead)
  | .waitNext prevHead =>
    let nextHead := s.next prevHead
    if nextHead = .tail then s else s.setThread t (.storeHead prevHead nextHead)
  | .storeHead prevHead nextHead => (s.setNext .head nextHead).ret t (some prevHead)

inductive Event (T E : Type) where
  | append (t : T) (elem : E)
  | get (t : T)
  | step (t : T)

/-- A thread makes one call at a time, and each element is appended at most once. -/
def Event.run (s : SList T E) : Event T E → Option (SList T E)
  | append t elem =>
    if s.thread t = .idle ∧ elem ∉ s.called.map Prod.snd then
      some { s.setThread t (.storeNext elem) with called := s.called ++ [(t, elem)] }
    else none
  | get t => if s.thread t = .idle then some (s.setThread t .loadHead) else none
  | step t => some (exec s t)

def runAll : SList T E → List (Event T E) → Option (SList T E)
  | s, [] => some s
  | s, event :: events => (event.run s).bind fun s => runAll s events

namespace SList

/-- The elements that a thread has called `ILInterlockedSListAppend` for. -/
def calledBy (s : SList T E) (t : T) : List E :=
  s.called.filterMap fun call => if call.1 = t then some call.2 else none

/-- The elements that all calls of `ILInterlockedSListGet` have returned. -/
def results (s : SList T E) : List (Ptr E) := s.returned.filterMap Prod.snd

def resultsOf (s : SList T E) (t : T) : List (Ptr E) :=
  s.returned.filterMap fun call => if call.1 = t then call.2 else none

/-- Nothing is under way, and the list is empty. -/
def Drained (s : SList T E) : Prop :=
  (∀ t, s.thread t = .idle) ∧ ilInterlockedSListIsEmpty s = true

end SList

end Pnet.Support.InterlockedSList
