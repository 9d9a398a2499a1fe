import Pnet.Support.ThreadCount

/-! The operations of `support/thread.c` on a thread's state word, as programs whose steps are taken
one at a time: a critical section entered or left, one load, one store of a half or of both. -/
namespace Pnet.Support.ThreadWord

open Thread (Flag Half ThreadState)

/-! ### What is stored -/

/-- `|= flag` and `&= ~flag` on a half -/
inductive Edit where
  | set (flag : Flag)
  | clear (flag : Flag)
deriving DecidableEq, Repr

def Edit.apply (half : Half) : Edit → Half
  | set flag => half.set flag
  | clear flag => half.clear flag

/-- What is done to a word that has been loaded before it is stored. -/
structure Edits where
  priv : List Edit := []
  pub : List Edit := []
deriving DecidableEq, Repr

def Edits.apply (edits : Edits) (threadState : ThreadState) : ThreadState :=
  { priv := edits.priv.foldl Edit.apply threadState.priv,
    pub := edits.pub.foldl Edit.apply threadState.pub }

/-- `ILInterlockedStoreU2` of a half and `ILInterlockedStoreU4` of both -/
inductive Width where
  | priv | pub | comb
deriving DecidableEq, Repr

def Width.storesPriv : Width → Bool
  | priv => true
  | pub => false
  | comb => true

def Width.storesPub : Width → Bool
  | priv => false
  | pub => true
  | comb => true

/-- The word after a store. -/
def stored (state : ThreadState) (width : Width) (value : ThreadState) : ThreadState :=
  { priv := if width.storesPriv then value.priv else state.priv,
    pub := if width.storesPub then value.pub else state.pub }

/-- Whether the thread enters or leaves a wait with a store. -/
inductive Mark where
  | stays | enters | leaves
deriving DecidableEq, Repr

def Mark.after (waiting : Bool) : Mark → Bool
  | stays => waiting
  | enters => true
  | leaves => false

/-- The load that `_ILThreadEnterWaitState` takes in its critical section, the one of the joined
thread's word that `ILThreadJoin` takes after its wait, and all others. -/
inductive Point where
  | plain | waitRecheck | joinCheck
deriving DecidableEq, Repr

/-! ### Programs -/

/-- What a thread still has to do. A suspended thread is one that does not take its next step, and a
step that waits for another thread is taken when that has answered. -/
inductive Prog (T : Type) where
  | done (result : Int)
  /-- `_ILCriticalSectionEnter` and `_ILCriticalSectionLeaveUnsafe` of a thread's lock -/
  | enter (thread : T) (next : Prog T)
  | leaveUnsafe (thread : T) (next : Prog T)
  /-- The end of `_ILCriticalSectionLeave`, where `suspendRequested` is read if this was the last
  lock held. -/
  | check (next : Prog T)
  | load (thread : T) (point : Point) (next : ThreadState → Prog T)
  | store (thread : T) (width : Width) (threadState : ThreadState) (edits : Edits) (mark : Mark)
      (next : Prog T)
  | setSuspendRequested (thread : T) (suspendRequested : Bool) (next : Prog T)
  /-- Something that is not part of any word decides. -/
  | pick (next : Int → Prog T)
  /-- The wait that the state is entered for. -/
  | wait (next : Int → Prog T)
  /-- A signal or a semaphore. -/
  | await (next : Prog T)
  /-- `_ILThreadSuspendSelf` -/
  | suspendSelf (next : Prog T)
  /-- `_ILThreadCreateSystem` -/
  | create (thread : T) (next : Prog T)

variable {T : Type} [DecidableEq T]

open Prog

/-- `_ILCriticalSectionLeave` -/
def leave (thread : T) (next : Prog T) : Prog T :=
  leaveUnsafe thread <| check next

/-- `_ILThreadSuspendRequest` -/
def suspendRequest (self : T) (next : Prog T) : Prog T :=
  enter self <| load self .plain fun threadState =>
  store self .pub threadState
    { pub := [.clear .suspendRequested, .set .suspended, .set .suspendedSelf] } .stays <|
  setSuspendRequested self false <|
  leave self <|
  suspendSelf next

/-! ### Start and end -/

def ilThreadStart (thread : T) : Prog T :=
  load thread .plain fun threadState =>
  if threadState.pub.Has .unstarted then
    enter thread <| load thread .plain fun threadState =>
    if threadState.pub.Has .unstarted then
      pick fun created =>
      if created = 0 then leave thread <| done 0
      else
        create thread <|
        store thread .pub threadState { pub := [.clear .unstarted] } .stays <|
        leave thread <|
        done 1
    else leave thread <| done 0
  else done 0

/-- `_ILThreadRun`, up to the thread's function -/
def ilThreadRun (self : T) : Prog T :=
  enter self <|
  leave self <|
  store self .priv {} {} .stays <|
  done 0

/-- `_ILThreadRun`, from where the thread's function has returned -/
def ilThreadRunEnd (self : T) : Prog T :=
  load self .plain fun threadState =>
  store self .priv threadState { priv := [.set .stopped] } .stays <|
  check <|
  enter self <|
  leave self <|
  done 0

/-! ### Suspend and resume -/

def ilSuspendFailed : Int := 0
def ilSuspendOk : Int := 1
def ilSuspendRequested : Int := 2
def ilWaitAborted : Int := -4

/-- The part of `ILThreadSuspendRequest` that suspends another thread -/
def suspendOther (thread : T) (threadState : ThreadState) : Prog T :=
  store thread .pub threadState { pub := [.set .suspended] } .stays <|
  await <| pick fun numLocksHeld =>
  if numLocksHeld = 0 then leave thread <| done ilSuspendOk
  else
    let threadState := ({ pub := [.set .suspended] } : Edits).apply threadState
    store thread .pub threadState { pub := [.clear .suspended, .set .suspendRequested] } .stays <|
    setSuspendRequested thread true <|
    await <|
    leaveUnsafe thread <|
    await <|
    enter thread <|
    leave thread <|
    done ilSuspendOk

def ilThreadSuspendRequest (self thread : T) (requestOnly : Bool) : Prog T :=
  enter thread <| load thread .plain fun threadState =>
  if threadState.pub.Has .abortRequested then leave thread <| done ilWaitAborted
  else if threadState.pub.Has .suspended then leave thread <| done ilSuspendOk
  else if threadState.pub.Has .unstarted ∨ threadState.priv.Has .stopped then
    leave thread <| done ilSuspendFailed
  else if threadState.priv.Has .waitSleepJoin ∨ requestOnly = true then
    store thread .pub threadState { pub := [.set .suspendRequested] } .stays <|
    leave thread <|
    done ilSuspendRequested
  else if self = thread then
    store thread .pub threadState
      { pub := [.clear .suspendRequested, .set .suspended, .set .suspendedSelf] } .stays <|
    leave thread <|
    suspendSelf <|
    done ilSuspendOk
  else suspendOther thread threadState

/-- `ILThreadResume`, with what its caller does next -/
def ilThreadResume (thread : T) (next : Prog T) : Prog T :=
  enter thread <| load thread .plain fun threadState =>
  if threadState.pub.Has .suspended then
    if threadState.pub.Has .suspendedSelf then
      store thread .pub threadState
        { pub := [.clear .suspended, .clear .suspendedSelf] } .stays <|
      await <|
      leave thread next
    else
      store thread .pub threadState { pub := [.clear .suspended] } .stays <|
      await <|
      leave thread next
  else if threadState.pub.Has .suspendRequested then
    store thread .pub threadState { pub := [.clear .suspendRequested] } .stays <|
    setSuspendRequested thread false <|
    leave thread next
  else leave thread next

/-! ### Interrupt and abort -/

/-- The critical section of a wakeup is left at the end of `_ILWakeupInterrupt`. -/
def wakeupInterrupt (next : Prog T) : Prog T := check next

def ilThreadInterrupt (thread : T) : Prog T :=
  load thread .plain fun threadState =>
  if threadState.priv.Has .stopped then done 0
  else
    enter thread <| load thread .plain fun threadState =>
    if ¬ threadState.pub.Has .unstarted ∧ ¬ threadState.priv.Has .stopped then
      store thread .pub threadState { pub := [.set .interrupted] } .stays <|
      leave thread <|
      wakeupInterrupt <|
      done 0
    else leave thread <| done 0

def ilThreadSelfAborting (self : T) : Prog T :=
  load self .plain fun threadState =>
  if threadState.priv.Has .aborted then done 0
  else if threadState.pub.Has .abortRequested then
    enter self <| load self .plain fun threadState =>
    if threadState.pub.Has .abortRequested then
      store self .comb threadState
        { priv := [.set .aborted], pub := [.clear .abortRequested] } .stays <|
      leave self <|
      done 1
    else leave self <| done 0
  else done 0

def ilThreadAbort (thread : T) : Prog T :=
  enter thread <| load thread .plain fun threadState =>
  if threadState.priv.Has .aborted ∨ threadState.pub.Has .abortRequested then
    leave thread <| done 0
  else
    store thread .pub threadState { pub := [.set .abortRequested] } .stays <|
    load thread .plain fun threadState =>
    if threadState.pub.Has .suspendedSelf ∨ threadState.pub.Has .suspended then
      leave thread <|
      ilThreadResume thread <|
      done 0
    else if threadState.priv.Has .waitSleepJoin then
      leave thread <|
      wakeupInterrupt <|
      done 0
    else leave thread <| done 0

def ilThreadAbortReset (self : T) : Prog T :=
  enter self <| load self .plain fun threadState =>
  if threadState.priv.Has .aborted ∨ threadState.pub.Has .abortRequested then
    store self .comb threadState
      { priv := [.clear .aborted], pub := [.clear .abortRequested, .clear .interrupted] } .stays <|
    leave self <|
    done 1
  else leave self <| done 0

/-! ### Join -/

def ilJoinTimeout : Int := 0
def ilJoinOk : Int := 1
def ilJoinInterrupted : Int := 2
def ilJoinAborted : Int := 3
def ilJoinSelf : Int := 4
def ilJoinUnstarted : Int := 5
def ilJoinMemory : Int := 6

/-- The part of `ILThreadJoin` behind its wait -/
def joinEnd (self thread : T) (result : Int) : Prog T :=
  enter self <| load self .plain fun selfState =>
  let result := if selfState.pub.Has .interrupted then ilJoinInterrupted else result
  store self .comb selfState
    { priv := [.clear .waitSleepJoin], pub := [.clear .interrupted] } .leaves <|
  load thread .joinCheck fun threadState =>
  if threadState.pub.Has .suspendRequested then
    leave self <| enter thread <| load thread .plain fun threadState =>
    store thread .pub threadState
      { pub := [.clear .suspendRequested, .set .suspended, .set .suspendedSelf] } .stays <|
    suspendSelf <|
    leave thread <|
    done result
  else
    leave self <|
    enter thread <|
    leave thread <|
    done result

/-- The part of `ILThreadJoin` from where the caller is in the joined thread's queue -/
def joinWait (self thread : T) : Prog T :=
  leave thread <| enter self <| load self .plain fun selfState =>
  if selfState.pub.Has .abortRequested then
    leave self <|
    enter thread <|
    leave thread <|
    done ilJoinAborted
  else
    store self .priv selfState { priv := [.set .waitSleepJoin] } .enters <|
    leave self <|
    wait fun result =>
    joinEnd self thread
      (if result < 0 then ilJoinAborted else if result > 0 then ilJoinOk else ilJoinTimeout)

def ilThreadJoin (self thread : T) : Prog T :=
  if self = thread then done ilJoinSelf
  else
    enter thread <| load thread .plain fun threadState =>
    if threadState.priv.Has .stopped then leave thread <| done ilJoinOk
    else if threadState.pub.Has .unstarted then leave thread <| done ilJoinUnstarted
    else
      pick fun limit =>
      if limit = 0 then leave thread <| done (-1)
      else
        pick fun added =>
        if added = 0 then leave thread <| done ilJoinMemory
        else joinWait self thread

/-! ### Waits -/

def ilThreadOk : Int := 0
def ilThreadErrInterrupt : Int := 0xC0
/-- `0x80131530` as an `int` -/
def ilThreadErrAborted : Int := 0x80131530 - 0x100000000

/-- `_ILThreadEnterWaitState`, with what its caller does with the result -/
def ilThreadEnterWaitState (self : T) (next : Int → Prog T) : Prog T :=
  load self .plain fun threadState =>
  store self .priv threadState { priv := [.set .waitSleepJoin] } .enters <|
  load self .plain fun threadState =>
  if threadState.pub.Has .abortRequested then
    enter self <| load self .waitRecheck fun threadState =>
    if threadState.pub.Has .abortRequested ∨ threadState.pub.Has .interrupted then
      -- the comment says that the flag is cleared here, and the error is that the wait is over
      store self .comb threadState
        { priv := [.set .waitSleepJoin], pub := [.clear .interrupted] } .leaves <|
      leave self <|
      next ilThreadErrAborted
    else leave self <| next ilThreadOk
  else next ilThreadOk

/-- The critical section of `_ILThreadLeaveWaitState` -/
def leaveRequested (self : T) (result : Int) (threadState : ThreadState) (next : Int → Prog T) :
    Prog T :=
  let aborted := threadState.pub.Has .abortRequested
  let interrupted := threadState.pub.Has .interrupted
  let result :=
    if aborted then ilThreadErrAborted else if interrupted then ilThreadErrInterrupt else result
  let cleared : List Edit := if aborted ∨ interrupted then [.clear .interrupted] else []
  if threadState.pub.Has .suspendRequested then
    store self .pub threadState
      { pub := cleared ++ [.clear .suspendRequested, .set .suspended, .set .suspendedSelf] }
      .stays <|
    leave self <|
    suspendSelf <|
    next result
  else
    store self .pub threadState { pub := cleared } .stays <|
    leave self <|
    next result

/-- `_ILThreadLeaveWaitState`, with what its caller does with the result -/
def ilThreadLeaveWaitState (self : T) (result : Int) (next : Int → Prog T) : Prog T :=
  load self .plain fun threadState =>
  store self .priv threadState { priv := [.clear .waitSleepJoin] } .leaves <|
  load self .plain fun threadState =>
  if threadState.pub.Has .abortRequested ∨ threadState.pub.Has .interrupted ∨
      threadState.pub.Has .suspendRequested then
    enter self <| load self .plain fun threadState =>
    leaveRequested self result threadState next
  else next result

/-- Critical sections of another kind that are left one after the other. -/
def checks (locks : Nat) (next : Prog T) : Prog T :=
  match locks with
  | 0 => next
  | locks + 1 => check <| checks locks next

/-- `ILThreadSleep`, and the waits of a monitor, which leave critical sections of their own before
they wait -/
def ilThreadSleep (self : T) (locks : Nat) : Prog T :=
  ilThreadEnterWaitState self fun result =>
  if result ≠ ilThreadOk then checks locks <| done result
  else
    checks locks <| wait fun result =>
    ilThreadLeaveWaitState self result fun waitStateResult =>
    done (if waitStateResult ≠ ilThreadOk then waitStateResult else result)

end Pnet.Support.ThreadWord

/-! ### The system

Any number of threads whose operations on each other's state words are interleaved step by step,
and what every state of a run should look like. -/
namespace Pnet.Support.ThreadWord

open Thread (Flag Half ThreadState)

variable {T : Type} [DecidableEq T]

/-! ### Calls -/

/-- What a running thread calls. -/
inductive Call (T : Type) where
  | start (thread : T)
  | suspendRequest (thread : T) (requestOnly : Bool)
  | resume (thread : T)
  | interrupt (thread : T)
  | selfAborting
  | abort (thread : T)
  | abortReset
  | join (thread : T)
  | sleep (locks : Nat)
  /-- The end of a critical section of another kind -/
  | leaveOther
deriving DecidableEq, Repr

def Call.prog (self : T) : Call T → Prog T
  | start thread => ilThreadStart thread
  | suspendRequest thread requestOnly => ilThreadSuspendRequest self thread requestOnly
  | resume thread => ilThreadResume thread (.done 0)
  | interrupt thread => ilThreadInterrupt thread
  | selfAborting => ilThreadSelfAborting self
  | abort thread => ilThreadAbort thread
  | abortReset => ilThreadAbortReset self
  | join thread => ilThreadJoin self thread
  | sleep locks => ilThreadSleep self locks
  | leaveOther => checks 1 (.done 0)

/-- The thread asks itself to be suspended. -/
def Call.asksSelf (self : T) : Call T → Bool
  | suspendRequest thread _ => thread = self
  | _ => false

/-! ### The system -/

/-- The words and the locks of all threads, and where each thread is. `waiting` and `asked` only
record what has happened: that a thread has entered a wait and not left it, and that it has met a
suspend request addressed to it since it last suspended itself. -/
structure System (T : Type) where
  mainThread : T
  state : T → ThreadState
  suspendRequested : T → Bool
  /-- The thread that is in the critical section of a thread's lock -/
  holder : T → Option T
  created : T → Bool
  /-- The thread's function is running, and can call. -/
  active : T → Bool
  prog : T → Prog T
  waiting : T → Bool
  asked : T → Bool

def Prog.returned : Prog T → Bool
  | done _ => true
  | _ => false

/-- The load that comes next. -/
def Prog.nextLoad : Prog T → Option (T × Point)
  | load thread point _ => some (thread, point)
  | _ => none

/-- Nothing but locks given up stands between a thread and its suspension. -/
def Prog.Suspends : Prog T → Prop
  | suspendSelf _ => True
  | setSuspendRequested _ _ next => next.Suspends
  | leaveUnsafe _ next => next.Suspends
  | check next => next.Suspends
  | _ => False

namespace System

open Function (update)

def goOn (s : System T) (t : T) (next : Prog T) : System T :=
  { s with prog := update s.prog t next }

/-- The thread has looked at its own word, or at its own `suspendRequested`. -/
def meet (s : System T) (t : T) (found : Bool) : System T :=
  { s with asked := update s.asked t (s.asked t || found) }

/-- The next step of a thread; what is not decided by the state is decided by the answer. -/
def step (s : System T) (t : T) (answer : Int) : Option (System T) :=
  match s.prog t with
  | .done _ => none
  | .enter thread next =>
    if s.holder thread = none then
      some { s.goOn t next with holder := update s.holder thread (some t) }
    else none
  | .leaveUnsafe thread next => some { s.goOn t next with holder := update s.holder thread none }
  | .check next =>
    if answer ≠ 0 ∧ s.suspendRequested t = true then
      some ((s.meet t true).goOn t (suspendRequest t next))
    else some (s.goOn t next)
  | .load thread _ next =>
    let found := decide (thread = t ∧ (s.state thread).pub.Has .suspendRequested)
    some ((s.meet t found).goOn t (next (s.state thread)))
  | .store thread width threadState edits mark next =>
    some { s.goOn t next with
      state := update s.state thread
        (stored (s.state thread) width (edits.apply threadState)),
      waiting := update s.waiting t (mark.after (s.waiting t)) }
  | .setSuspendRequested thread suspendRequested next =>
    some { s.goOn t next with
      suspendRequested := update s.suspendRequested thread suspendRequested }
  | .pick next => some (s.goOn t (next answer))
  | .wait next => some (s.goOn t (next answer))
  | .await next => some (s.goOn t next)
  | .suspendSelf next => some { s.goOn t next with asked := update s.asked t false }
  | .create thread next =>
    some { (s.goOn t next).goOn thread (ilThreadRun thread) with
      created := update s.created thread true, active := update s.active thread true }

/-- What happens next: a thread calls, takes a step, or returns from its function. -/
inductive Label (T : Type) where
  | make (t : T) (call : Call T)
  | step (t : T) (answer : Int)
  | finish (t : T)
deriving DecidableEq, Repr

def exec (s : System T) : Label T → Option (System T)
  | .make t call =>
    if s.active t = true ∧ (s.prog t).returned = true then
      some ((s.meet t (call.asksSelf t)).goOn t (call.prog t))
    else none
  | .step t answer => s.step t answer
  | .finish t =>
    if t ≠ s.mainThread ∧ s.active t = true ∧ (s.prog t).returned = true then
      some { s.goOn t (ilThreadRunEnd t) with active := update s.active t false }
    else none

/-- Only the main thread is running, and any number of threads can still be started. -/
def init (main : T) : System T where
  mainThread := main
  state t := if t = main then {} else { pub := (0 : Half).set .unstarted }
  suspendRequested _ := false
  holder _ := none
  created t := decide (t = main)
  active t := decide (t = main)
  prog _ := .done 0
  waiting _ := false
  asked _ := false


/-! ### What should hold -/

structure Orderly (s : System T) : Prop where
  /-- What is about to be stored is the word as it stands, with the flags changed that the operation
  itself sets and clears. -/
  stores : ∀ {t thread width threadState edits mark next},
    s.prog t = .store thread width threadState edits mark next →
    stored (s.state thread) width (edits.apply threadState) =
      stored (s.state thread) width (edits.apply (s.state thread))
  /-- The flag is set exactly between entering and leaving a wait. -/
  flag : ∀ t, (s.state t).priv.Has .waitSleepJoin ↔ s.waiting t = true
  returned : ∀ {t result}, s.prog t = .done result → s.waiting t = false
  waits : ∀ {t next}, s.prog t = .wait next → s.waiting t = true
  /-- A thread is marked as self-suspended by itself, it has met a request addressed to it, and it
  goes on to suspend itself. -/
  suspends : ∀ {t thread width threadState edits mark next},
    s.prog t = .store thread width threadState edits mark next →
    .set .suspendedSelf ∈ edits.pub → thread = t ∧ s.asked t = true ∧ next.Suspends

/-- The load does not find what its caller goes wrong on. -/
def Harmless : Point → ThreadState → Prop
  | .plain, _ => True
  | .waitRecheck, threadState =>
    ¬ threadState.pub.Has .abortRequested ∧ ¬ threadState.pub.Has .interrupted
  | .joinCheck, threadState => ¬ threadState.pub.Has .suspendRequested

instance (point : Point) (threadState : ThreadState) : Decidable (Harmless point threadState) :=
  match point with
  | .plain => inferInstanceAs (Decidable True)
  | .waitRecheck => inferInstanceAs (Decidable (_ ∧ _))
  | .joinCheck => inferInstanceAs (Decidable (¬ _))

/-- No thread that enters a wait finds in its critical section that it is to be aborted or
interrupted, and no thread that has joined another finds that the other is to be suspended. -/
def Calm (s : System T) : Label T → Prop
  | .step t _ => ∀ load ∈ (s.prog t).nextLoad, Harmless load.2 (s.state load.1)
  | _ => True

instance (s : System T) (label : Label T) : Decidable (s.Calm label) :=
  match label with
  | .make _ _ => inferInstanceAs (Decidable True)
  | .step _ _ => inferInstanceAs (Decidable (∀ load ∈ _, _))
  | .finish _ => inferInstanceAs (Decidable True)

end System

end Pnet.Support.ThreadWord
