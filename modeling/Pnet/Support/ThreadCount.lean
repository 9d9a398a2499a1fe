import Pnet.CTypes
import Pnet.Lib.Labelled

/-! The flags of a thread's state word, `support/thr_defs.h`: two halves of 16 bits that are stored
apart. -/
namespace Pnet.Support.Thread

/-- `IL_TS_STOP_REQUESTED` and so on -/
inductive Flag where
  | stopRequested | suspendRequested | background | unstarted | stopped | waitSleepJoin
  | suspended | abortRequested | aborted | suspendedSelf | interrupted
deriving DecidableEq, Repr

def Flag.bit : Flag → Nat
  | stopRequested => 0
  | suspendRequested => 1
  | background => 2
  | unstarted => 3
  | stopped => 4
  | waitSleepJoin => 5
  | suspended => 6
  | abortRequested => 7
  | aborted => 8
  | suspendedSelf => 9
  | interrupted => 10

def Flag.mask (flag : Flag) : ILUInt16 := 1#16 <<< flag.bit

/-- One half of the word. -/
abbrev Half := ILUInt16

namespace Half

def Has (half : Half) (flag : Flag) : Prop := half &&& flag.mask ≠ 0

instance (half : Half) (flag : Flag) : Decidable (half.Has flag) :=
  inferInstanceAs (Decidable (_ ≠ _))

def set (half : Half) (flag : Flag) : Half := half ||| flag.mask

def clear (half : Half) (flag : Flag) : Half := half &&& ~~~flag.mask

variable {half : Half} {flag other : Flag}

theorem bit_lt (flag : Flag) : flag.bit < 16 := by
  cases flag <;> decide

theorem bit_injective {flag other : Flag} (h : flag.bit = other.bit) : flag = other := by
  revert h
  cases flag <;> cases other <;> decide

theorem getLsbD_mask (flag : Flag) (i : Nat) : flag.mask.getLsbD i = decide (i = flag.bit) := by
  have hbit := bit_lt flag
  rw [Flag.mask, ← BitVec.twoPow_eq, BitVec.getLsbD_twoPow]
  simp only [hbit, decide_true, Bool.true_and, eq_comm]

theorem has_iff : half.Has flag ↔ half.getLsbD flag.bit = true := by
  rw [Has, Ne, BitVec.eq_of_getLsbD_eq_iff]
  constructor
  · intro h
    by_contra hbit
    apply h
    intro i hi
    rw [BitVec.getLsbD_and, getLsbD_mask]
    by_cases heq : i = flag.bit
    · rw [heq, Bool.eq_false_iff.mpr hbit]
      simp
    · simp [heq]
  · intro hbit h
    have hzero := h flag.bit (bit_lt flag)
    rw [BitVec.getLsbD_and, getLsbD_mask, hbit] at hzero
    simp at hzero

@[simp] theorem has_set : (half.set flag).Has other ↔ other = flag ∨ half.Has other := by
  rw [has_iff, has_iff, set, BitVec.getLsbD_or, getLsbD_mask, Bool.or_eq_true, decide_eq_true_eq,
    or_comm]
  exact or_congr_left ⟨bit_injective, congrArg Flag.bit⟩

@[simp] theorem has_clear : (half.clear flag).Has other ↔ other ≠ flag ∧ half.Has other := by
  rw [has_iff, has_iff, clear, BitVec.getLsbD_and, BitVec.getLsbD_not, getLsbD_mask,
    Bool.and_eq_true, and_comm]
  have hbit := bit_lt other
  simp only [hbit, decide_true, Bool.true_and, Bool.not_eq_true', decide_eq_false_iff_not]
  exact and_congr_left fun _ => not_congr ⟨bit_injective, congrArg Flag.bit⟩

@[simp] theorem not_has_zero : ¬ Half.Has 0#16 flag := by
  rw [has_iff]
  simp

end Half

/-- `state`, with the half that only the thread itself stores and the one that others store too. -/
structure ThreadState where
  priv : Half := 0
  pub : Half := 0
deriving DecidableEq, Repr

end Pnet.Support.Thread

/-! ### The calls

The thread counts of `support/thread.c`: starting a thread, a thread that runs to its end, and
`ILThreadSetBackground`, one critical section entered or left, one load or one store of the state
word at a time. Each call in progress is told by what it does next. -/
namespace Pnet.Support.Thread

/-! ### Calls on a thread -/

inductive Call where
  /-- `ILThreadStart`; whether the system can create the thread -/
  | startCheck (created : Bool)
  | startEnter (created : Bool)
  | startLoad (created : Bool)
  | startStore (threadState : ThreadState)
  | startAdjust (isBackground : Bool)
  /-- `_ILThreadRun`, in which the thread's own function is run -/
  | runEnter
  | runLeave
  | runStart
  | runFunction
  | runStop (threadState : ThreadState)
  | runAdjust (isBackground : Bool)
  /-- `ILThreadSetBackground` -/
  | setEnter (flag : Bool)
  | setLoad (flag : Bool)
  | setStore (flag : Bool) (threadState : ThreadState)
  | setAdjust (numBackgroundThreadsAdjust : Int)
  /-- The thread's lock is given up at the end of the call. -/
  | leave
deriving DecidableEq, Repr

/-- The calls that others make; a thread is run by the one that starts it. -/
def Call.begins : Call → Bool
  | startCheck _ => true
  | setEnter _ => true
  | _ => false

/-- What one step of a call does to its thread: the state word, whether the lock is held, how the
counts are adjusted, and what is done next. -/
structure Effect where
  state : ThreadState
  locked : Bool
  adjust : Option (Int × Int) := none
  calls : List Call := []
deriving DecidableEq, Repr

/-- The word has no flag that says that the thread has not been started or has stopped. -/
def ThreadState.Live (state : ThreadState) : Prop :=
  ¬ state.pub.Has .unstarted ∧ ¬ state.priv.Has .stopped

instance (state : ThreadState) : Decidable state.Live := inferInstanceAs (Decidable (_ ∧ _))

/-- The flag is put in place in the public half. -/
def ThreadState.putBackground (state : ThreadState) (flag : Bool) : Half :=
  if flag then state.pub.set .background else state.pub.clear .background

/-- A critical section that another call is in cannot be entered. -/
def enter (state : ThreadState) (locked : Bool) (call : Call) : Option Effect :=
  if locked then none else some { state, locked := true, calls := [call] }

def Call.next (state : ThreadState) (locked : Bool) : Call → Option Effect
  | startCheck created =>
    if state.pub.Has .unstarted then some { state, locked, calls := [startEnter created] }
    else some { state, locked }
  | startEnter created => enter state locked (startLoad created)
  | startLoad created =>
    if state.pub.Has .unstarted ∧ created = true then
      some { state, locked, calls := [runEnter, startStore state] }
    else some { state, locked, calls := [leave] }
  | startStore threadState =>
    let pub := threadState.pub.clear .unstarted
    some { state := { state with pub }, locked,
           calls := [startAdjust (decide (pub.Has .background))] }
  | startAdjust isBackground =>
    some { state, locked, adjust := some (1, if isBackground then 1 else 0), calls := [leave] }
  | runEnter => enter state locked runLeave
  | runLeave => some { state, locked := false, calls := [runStart] }
  | runStart => some { state := { state with priv := 0 }, locked, calls := [runFunction] }
  | runFunction => some { state, locked, calls := [runStop state] }
  | runStop threadState =>
    some { state := { state with priv := threadState.priv.set .stopped }, locked,
           calls := [runAdjust (decide (threadState.pub.Has .background))] }
  | runAdjust isBackground =>
    some { state, locked, adjust := some (-1, if isBackground then -1 else 0) }
  | setEnter flag => enter state locked (setLoad flag)
  | setLoad flag =>
    if state.pub.Has .background ↔ flag = true then some { state, locked, calls := [leave] }
    else some { state, locked, calls := [setStore flag state] }
  | setStore flag threadState =>
    let state := { state with pub := threadState.putBackground flag }
    if threadState.Live then
      some { state, locked, calls := [setAdjust (if flag then 1 else -1)] }
    else some { state, locked, calls := [leave] }
  | setAdjust numBackgroundThreadsAdjust =>
    some { state, locked, adjust := some (0, numBackgroundThreadsAdjust), calls := [leave] }
  | leave => some { state, locked := false }

/-! ### The system -/

/-- A thread object, with the calls on it that are in progress. -/
structure ILThread where
  state : ThreadState
  locked : Bool := false
  calls : Multiset Call := 0

structure System (T : Type) where
  thread : T → ILThread
  numThreads : Int
  numBackgroundThreads : Int
  noFgThreadsEvent : Bool

namespace System

variable {T : Type} [DecidableEq T]

/-- `_ILThreadAdjustCount`, in its own critical section -/
def adjustCount (s : System T) : Option (Int × Int) → System T
  | none => s
  | some (numThreadsAdjust, numBackgroundThreadsAdjust) =>
    let numThreads := s.numThreads + numThreadsAdjust
    let numBackgroundThreads := s.numBackgroundThreads + numBackgroundThreadsAdjust
    { s with numThreads, numBackgroundThreads,
             noFgThreadsEvent := decide (numThreads - numBackgroundThreads = 1) }

def setThread (s : System T) (t : T) (thread : ILThread) : System T :=
  { s with thread := Function.update s.thread t thread }

/-- What the system does next: a call is made, or one in progress takes a step. -/
inductive Label (T : Type) where
  | make (t : T) (call : Call)
  | step (t : T) (call : Call)
deriving DecidableEq, Repr

def exec (s : System T) : Label T → Option (System T)
  | .make t call =>
    if call.begins then
      some (s.setThread t { s.thread t with calls := call ::ₘ (s.thread t).calls })
    else none
  | .step t call => do
    if call ∈ (s.thread t).calls then
      let effect ← call.next (s.thread t).state (s.thread t).locked
      some ((s.setThread t { state := effect.state, locked := effect.locked,
                             calls := effect.calls + (s.thread t).calls.erase call }).adjustCount
        effect.adjust)
    else none

/-- Only the main thread is running, and any number of threads can still be started. -/
def init (main : T) : System T where
  thread t := { state := if t = main then {} else { pub := (0 : Half).set .unstarted } }
  numThreads := 1
  numBackgroundThreads := 0
  noFgThreadsEvent := true

end System

end Pnet.Support.Thread
