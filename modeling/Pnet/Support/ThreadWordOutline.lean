import Pnet.Support.ThreadWord

/-! A thread is checked against what it knows: the public half of the word whose lock it holds,
which nobody else stores then, and the private half of its own word, which nobody else stores. -/
namespace Pnet.Support.ThreadWord

open Thread (Flag Half ThreadState)

variable {T : Type} [DecidableEq T]

open Prog

/-! ### What a thread knows -/

/-- The thread whose lock is held, the public half of its word, and whether it has been created. -/
structure Held (T : Type) where
  thread : T
  pub : Half
  created : Bool

/-- Outside of its start a thread has been created unless its word says that it has not been
started. -/
def Held.Settled (held : Held T) : Prop := held.pub.Has .unstarted ↔ held.created = false

structure View (T : Type) where
  held : Option (Held T)
  priv : Half
  waiting : Bool
  asked : Bool

namespace View

def Steady (view : View T) : Prop := view.priv.Has .waitSleepJoin ↔ view.waiting = true

/-- The word that is loaded is the one that the thread knows of. -/
def Agrees (t : T) (view : View T) (thread : T) (threadState : ThreadState) : Prop :=
  (∀ held, view.held = some held → held.thread = thread → threadState.pub = held.pub) ∧
    (thread = t → threadState.priv = view.priv)

def met (view : View T) (found : Bool) : View T := { view with asked := view.asked || found }

/-- The view after a store of the thread's own word or of the one that it holds. -/
def stored (view : View T) (width : Width) (value : ThreadState) (mark : Mark) : View T :=
  { view with
    held := if width.storesPub then view.held.map ({ · with pub := value.pub }) else view.held,
    priv := if width.storesPriv then value.priv else view.priv,
    waiting := mark.after view.waiting }

end View

/-- The program can be gone through from the view: what it stores is up to date, the flag of a wait
goes with the wait, and it suspends itself only when it has been asked to. -/
def Outline (t : T) : Prog T → View T → Prop
  | .done _, view => view.held = none ∧ view.waiting = false
  | .enter thread next, view => view.held = none ∧
      ∀ pub created, (Held.mk thread pub created).Settled →
        Outline t next { view with held := some ⟨thread, pub, created⟩ }
  | .leaveUnsafe thread next, view =>
      (∃ held, view.held = some held ∧ held.thread = thread ∧ held.Settled) ∧
        Outline t next { view with held := none }
  | .check next, view => view.held = none ∧ ∀ asked, Outline t next { view with asked }
  | .load thread point next, view => ∀ threadState, view.Agrees t thread threadState →
      System.Harmless point threadState → Outline t (next threadState)
        (view.met (decide (thread = t ∧ threadState.pub.Has .suspendRequested)))
  | .store thread width threadState edits mark next, view =>
      (if width.storesPriv = true then thread = t ∧ threadState.priv = view.priv ∧
        (view.stored width (edits.apply threadState) mark).Steady else mark = .stays) ∧
      (width.storesPub = true →
        ∃ held, view.held = some held ∧ held.thread = thread ∧ held.pub = threadState.pub) ∧
      (.set .suspendedSelf ∈ edits.pub → thread = t ∧ view.asked = true ∧ next.Suspends) ∧
      Outline t next (view.stored width (edits.apply threadState) mark)
  | .setSuspendRequested _ _ next, view => Outline t next view
  | .pick next, view => ∀ answer, Outline t (next answer) view
  | .wait next, view => view.held = none ∧ view.waiting = true ∧
      ∀ answer, Outline t (next answer) view
  | .await next, view => Outline t next view
  | .suspendSelf next, view => Outline t next { view with asked := false }
  | .create thread next, view => ∃ pub, view.held = some ⟨thread, pub, false⟩ ∧
      Outline t next { view with held := some ⟨thread, pub, true⟩ }

/-! ### Edits -/

theorem has_edit {flag : Flag} {edits : List Edit} (hset : .set flag ∉ edits)
    (hclear : .clear flag ∉ edits) (half : Half) :
    (edits.foldl Edit.apply half).Has flag ↔ half.Has flag := by
  induction edits generalizing half with
  | nil => rfl
  | cons edit edits ih =>
    rw [List.foldl_cons, ih (mt (List.mem_cons_of_mem _) hset) (mt (List.mem_cons_of_mem _) hclear)]
    cases edit with
    | set other =>
      have hne : flag ≠ other := fun heq => hset (heq ▸ List.mem_cons_self)
      simp [Edit.apply, hne]
    | clear other =>
      have hne : flag ≠ other := fun heq => hclear (heq ▸ List.mem_cons_self)
      simp [Edit.apply, hne]

omit [DecidableEq T] in
/-- An edit that leaves the flag of an unstarted thread alone. -/
theorem Held.Settled.edit {thread : T} {threadState : ThreadState} {created : Bool}
    (h : (Held.mk thread threadState.pub created).Settled) (edits : Edits)
    (hset : .set .unstarted ∉ edits.pub) (hclear : .clear .unstarted ∉ edits.pub) :
    (Held.mk thread (edits.apply threadState).pub created).Settled :=
  (has_edit hset hclear threadState.pub).trans h

/-! ### Rules -/

section Rules

variable {t thread : T} {priv : Half} {waiting asked : Bool} {created : Bool}
  {threadState : ThreadState} {edits : Edits} {mark : Mark} {next : Prog T}

theorem outline_leave {pub : Half} (hsettled : (Held.mk thread pub created).Settled)
    (hnext : ∀ asked, Outline t next ⟨none, priv, waiting, asked⟩) :
    Outline t (leave thread next) ⟨some ⟨thread, pub, created⟩, priv, waiting, asked⟩ :=
  ⟨⟨_, rfl, rfl, hsettled⟩, rfl, hnext⟩

theorem outline_leave_done {pub : Half} (hsettled : (Held.mk thread pub created).Settled)
    (result : Int) : Outline t (leave thread (done result))
      ⟨some ⟨thread, pub, created⟩, priv, false, asked⟩ :=
  outline_leave hsettled fun _ => ⟨rfl, rfl⟩

/-- What a thread finds when it loads a word in its critical section. -/
theorem outline_enter_load {point : Point} {next : ThreadState → Prog T}
    (hnext : ∀ threadState created asked', (Held.mk thread threadState.pub created).Settled →
      (thread = t → threadState.priv = priv) → System.Harmless point threadState →
      (asked = true ∨ thread = t ∧ threadState.pub.Has .suspendRequested → asked' = true) →
      Outline t (next threadState)
        ⟨some ⟨thread, threadState.pub, created⟩, priv, waiting, asked'⟩) :
    Outline t (enter thread <| load thread point next) ⟨none, priv, waiting, asked⟩ := by
  refine ⟨rfl, fun pub created hsettled threadState hagrees hharmless => ?_⟩
  have hpub : threadState.pub = pub := hagrees.1 _ rfl rfl
  subst hpub
  apply hnext threadState created _ hsettled hagrees.2 hharmless
  intro hasked
  simpa [View.met] using hasked

/-- What a thread finds of its own word when it loads one, in or outside of a critical section. -/
theorem outline_load {point : Point} {held : Option (Held T)} {next : ThreadState → Prog T}
    (hnext : ∀ threadState asked', (thread = t → threadState.priv = priv) →
      System.Harmless point threadState →
      Outline t (next threadState) ⟨held, priv, waiting, asked'⟩) :
    Outline t (load thread point next) ⟨held, priv, waiting, asked⟩ :=
  fun threadState hagrees hharmless => hnext threadState _ hagrees.2 hharmless

theorem outline_pick {view : View T} {next : Int → Prog T}
    (hnext : ∀ answer, Outline t (next answer) view) : Outline t (pick next) view :=
  hnext

/-- A store of the public half of the word that is held. -/
theorem outline_storePub (hself : .set .suspendedSelf ∉ edits.pub)
    (hnext : Outline t next
      ⟨some ⟨thread, (edits.apply threadState).pub, created⟩, priv, waiting, asked⟩) :
    Outline t (store thread .pub threadState edits .stays next)
      ⟨some ⟨thread, threadState.pub, created⟩, priv, waiting, asked⟩ :=
  ⟨rfl, fun _ => ⟨_, rfl, rfl, rfl⟩, fun hmem => absurd hmem hself, hnext⟩

omit [DecidableEq T] in
theorem suspends_leave : (leave thread (suspendSelf next)).Suspends := trivial

omit [DecidableEq T] in
theorem suspends_setSuspendRequested (hsuspends : next.Suspends) (requested : Bool) :
    (setSuspendRequested thread requested next).Suspends := hsuspends

/-- A thread that has been asked to marks itself as self-suspended. -/
theorem outline_storeSelf (hasked : asked = true) (hsuspends : next.Suspends)
    (hnext : Outline t next
      ⟨some ⟨t, (edits.apply threadState).pub, created⟩, priv, waiting, asked⟩) :
    Outline t (store t .pub threadState edits .stays next)
      ⟨some ⟨t, threadState.pub, created⟩, priv, waiting, asked⟩ :=
  ⟨rfl, fun _ => ⟨_, rfl, rfl, rfl⟩, fun _ => ⟨rfl, hasked, hsuspends⟩, hnext⟩

/-- A store of the thread's own private half. -/
theorem outline_storePriv {held : Option (Held T)} (hpriv : threadState.priv = priv)
    (hsteady : (edits.apply threadState).priv.Has .waitSleepJoin ↔ mark.after waiting = true)
    (hself : .set .suspendedSelf ∉ edits.pub)
    (hnext : Outline t next ⟨held, (edits.apply threadState).priv, mark.after waiting, asked⟩) :
    Outline t (store t .priv threadState edits mark next) ⟨held, priv, waiting, asked⟩ :=
  ⟨⟨rfl, hpriv, hsteady⟩, fun hpub => absurd hpub Bool.false_ne_true,
    fun hmem => absurd hmem hself, hnext⟩

/-- A store of both halves of the thread's own word. -/
theorem outline_storeComb (hpriv : threadState.priv = priv)
    (hsteady : (edits.apply threadState).priv.Has .waitSleepJoin ↔ mark.after waiting = true)
    (hself : .set .suspendedSelf ∉ edits.pub)
    (hnext : Outline t next ⟨some ⟨t, (edits.apply threadState).pub, created⟩,
      (edits.apply threadState).priv, mark.after waiting, asked⟩) :
    Outline t (store t .comb threadState edits mark next)
      ⟨some ⟨t, threadState.pub, created⟩, priv, waiting, asked⟩ :=
  ⟨⟨rfl, hpriv, hsteady⟩, fun _ => ⟨_, rfl, rfl, rfl⟩, fun hmem => absurd hmem hself, hnext⟩

/-- `_ILThreadSuspendRequest` in a thread that has been asked to suspend itself -/
theorem outline_suspendRequest (hnext : ∀ asked, Outline t next ⟨none, priv, waiting, asked⟩) :
    Outline t (suspendRequest t next) ⟨none, priv, waiting, true⟩ := by
  apply outline_enter_load
  intro threadState created asked hsettled _ _ hasked
  apply outline_storeSelf (hasked (.inl rfl)) (suspends_setSuspendRequested suspends_leave false)
  exact outline_leave (hsettled.edit _ (by decide) (by decide)) fun _ => hnext false

end Rules

/-! ### The operations -/

section Operations

variable {t : T} {priv : Half} {waiting asked : Bool}

theorem outline_ilThreadStart (thread : T) :
    Outline t (ilThreadStart thread) ⟨none, priv, false, asked⟩ := by
  apply outline_load
  intro threadState asked _ _
  split_ifs
  · apply outline_enter_load
    intro threadState created asked hsettled _ _ _
    split_ifs with hunstarted
    · apply outline_pick
      intro answer
      split_ifs
      · exact outline_leave_done hsettled 0
      · obtain rfl : created = false := hsettled.mp hunstarted
        refine ⟨_, rfl, ?_⟩
        apply outline_storePub (by decide)
        apply outline_leave_done
        simp [Held.Settled, Edits.apply, Edit.apply]
    · exact outline_leave_done hsettled 0
  · exact ⟨rfl, rfl⟩

theorem outline_ilThreadRun : Outline t (ilThreadRun t) ⟨none, 0, false, asked⟩ := by
  refine ⟨rfl, fun pub created hsettled => ?_⟩
  apply outline_leave hsettled
  intro asked
  apply outline_storePriv rfl (by simp [Edits.apply, Mark.after]) (by decide)
  exact ⟨rfl, rfl⟩

theorem outline_ilThreadRunEnd (hsteady : ¬ priv.Has .waitSleepJoin) :
    Outline t (ilThreadRunEnd t) ⟨none, priv, false, asked⟩ := by
  apply outline_load
  intro threadState asked hpriv _
  apply outline_storePriv (hpriv rfl) _ (by decide)
  · refine ⟨rfl, fun asked => ⟨rfl, fun pub created hsettled => ?_⟩⟩
    exact outline_leave_done hsettled 0
  · simpa [Edits.apply, Edit.apply, Mark.after, hpriv rfl]

theorem outline_suspendOther (thread : T) {threadState : ThreadState} {created : Bool}
    (hsettled : (Held.mk thread threadState.pub created).Settled) :
    Outline t (suspendOther thread threadState)
      ⟨some ⟨thread, threadState.pub, created⟩, priv, false, asked⟩ := by
  have hsuspended := hsettled.edit { pub := [.set .suspended] } (by decide) (by decide)
  apply outline_storePub (by decide)
  apply outline_pick
  intro answer
  split_ifs
  · exact outline_leave_done hsuspended _
  · apply outline_storePub (by decide)
    refine ⟨⟨_, rfl, rfl, hsuspended.edit _ (by decide) (by decide)⟩, rfl, ?_⟩
    intro pub created hsettled
    exact outline_leave_done hsettled _

theorem outline_ilThreadSuspendRequest (thread : T) (requestOnly : Bool)
    (hasked : thread = t → asked = true) :
    Outline t (ilThreadSuspendRequest t thread requestOnly) ⟨none, priv, false, asked⟩ := by
  apply outline_enter_load
  intro threadState created asked hsettled _ _ hmet
  split_ifs with _ _ _ _ heq
  · exact outline_leave_done hsettled _
  · exact outline_leave_done hsettled _
  · exact outline_leave_done hsettled _
  · apply outline_storePub (by decide)
    exact outline_leave_done (hsettled.edit _ (by decide) (by decide)) _
  · subst heq
    apply outline_storeSelf (hmet (.inl (hasked rfl))) suspends_leave
    exact outline_leave (hsettled.edit _ (by decide) (by decide)) fun _ => ⟨rfl, rfl⟩
  · exact outline_suspendOther thread hsettled

theorem outline_ilThreadResume (thread : T) {next : Prog T}
    (hnext : ∀ asked, Outline t next ⟨none, priv, waiting, asked⟩) :
    Outline t (ilThreadResume thread next) ⟨none, priv, waiting, asked⟩ := by
  apply outline_enter_load
  intro threadState created asked hsettled _ _ _
  split_ifs
  · apply outline_storePub (by decide)
    exact outline_leave (hsettled.edit _ (by decide) (by decide)) hnext
  · apply outline_storePub (by decide)
    exact outline_leave (hsettled.edit _ (by decide) (by decide)) hnext
  · apply outline_storePub (by decide)
    exact outline_leave (hsettled.edit _ (by decide) (by decide)) hnext
  · exact outline_leave hsettled hnext

theorem outline_ilThreadInterrupt (thread : T) :
    Outline t (ilThreadInterrupt thread) ⟨none, priv, false, asked⟩ := by
  apply outline_load
  intro threadState asked _ _
  split_ifs
  · exact ⟨rfl, rfl⟩
  · apply outline_enter_load
    intro threadState created asked hsettled _ _ _
    split_ifs
    · apply outline_storePub (by decide)
      apply outline_leave (hsettled.edit _ (by decide) (by decide))
      exact fun _ => ⟨rfl, fun _ => ⟨rfl, rfl⟩⟩
    · exact outline_leave_done hsettled 0

theorem outline_ilThreadSelfAborting (hsteady : ¬ priv.Has .waitSleepJoin) :
    Outline t (ilThreadSelfAborting t) ⟨none, priv, false, asked⟩ := by
  apply outline_load
  intro threadState asked _ _
  split_ifs
  · exact ⟨rfl, rfl⟩
  · apply outline_enter_load
    intro threadState created asked hsettled hpriv _ _
    split_ifs
    · apply outline_storeComb (hpriv rfl) _ (by decide)
      · exact outline_leave_done (hsettled.edit _ (by decide) (by decide)) 1
      · simpa [Edits.apply, Edit.apply, Mark.after, hpriv rfl]
    · exact outline_leave_done hsettled 0
  · exact ⟨rfl, rfl⟩

theorem outline_ilThreadAbort (thread : T) :
    Outline t (ilThreadAbort thread) ⟨none, priv, false, asked⟩ := by
  apply outline_enter_load
  intro threadState created asked hsettled _ _ _
  split_ifs
  · exact outline_leave_done hsettled 0
  · apply outline_storePub (by decide)
    have hrequested := hsettled.edit { pub := [.set .abortRequested] } (by decide) (by decide)
    apply outline_load
    intro threadState' asked _ _
    split_ifs
    · apply outline_leave hrequested
      exact fun _ => outline_ilThreadResume thread fun _ => ⟨rfl, rfl⟩
    · apply outline_leave hrequested
      exact fun _ => ⟨rfl, fun _ => ⟨rfl, rfl⟩⟩
    · exact outline_leave_done hrequested 0

theorem outline_ilThreadAbortReset (hsteady : ¬ priv.Has .waitSleepJoin) :
    Outline t (ilThreadAbortReset t) ⟨none, priv, false, asked⟩ := by
  apply outline_enter_load
  intro threadState created asked hsettled hpriv _ _
  split_ifs
  · apply outline_storeComb (hpriv rfl) _ (by decide)
    · exact outline_leave_done (hsettled.edit _ (by decide) (by decide)) 1
    · simpa [Edits.apply, Edit.apply, Mark.after, hpriv rfl]
  · exact outline_leave_done hsettled 0

theorem outline_joinEnd (thread : T) (result : Int) :
    Outline t (joinEnd t thread result) ⟨none, priv, true, asked⟩ := by
  apply outline_enter_load
  intro selfState created asked hsettled hpriv _ _
  apply outline_storeComb (hpriv rfl) _ (by decide)
  · apply outline_load
    intro threadState asked _ hharmless
    rw [if_neg hharmless]
    apply outline_leave (hsettled.edit _ (by decide) (by decide))
    intro asked
    exact ⟨rfl, fun pub created hsettled => outline_leave_done hsettled _⟩
  · simp [Edits.apply, Edit.apply, Mark.after]

theorem outline_joinWait (thread : T) {pub : Half} {created : Bool}
    (hsettled : (Held.mk thread pub created).Settled) :
    Outline t (joinWait t thread) ⟨some ⟨thread, pub, created⟩, priv, false, asked⟩ := by
  apply outline_leave hsettled
  intro asked
  apply outline_enter_load
  intro selfState created asked hsettled hpriv _ _
  split_ifs
  · apply outline_leave hsettled
    exact fun asked => ⟨rfl, fun pub created hsettled => outline_leave_done hsettled _⟩
  · apply outline_storePriv (hpriv rfl) _ (by decide)
    · apply outline_leave hsettled
      exact fun asked => ⟨rfl, rfl, fun answer => outline_joinEnd thread _⟩
    · simp [Edits.apply, Edit.apply, Mark.after]

theorem outline_ilThreadJoin (thread : T) :
    Outline t (ilThreadJoin t thread) ⟨none, priv, false, asked⟩ := by
  rw [ilThreadJoin]
  split_ifs
  · exact ⟨rfl, rfl⟩
  · apply outline_enter_load
    intro threadState created asked hsettled _ _ _
    split_ifs
    · exact outline_leave_done hsettled _
    · exact outline_leave_done hsettled _
    · apply outline_pick
      intro limit
      split_ifs
      · exact outline_leave_done hsettled _
      · apply outline_pick
        intro added
        split_ifs
        · exact outline_leave_done hsettled _
        · exact outline_joinWait thread hsettled

/-- A thread that finds no abort and no interrupt in its critical section enters the wait. -/
theorem outline_ilThreadEnterWaitState {next : Int → Prog T}
    (hnext : ∀ {priv : Half} asked, priv.Has .waitSleepJoin →
      Outline t (next ilThreadOk) ⟨none, priv, true, asked⟩) :
    Outline t (ilThreadEnterWaitState t next) ⟨none, priv, false, asked⟩ := by
  apply outline_load
  intro threadState asked hpriv _
  have henter : (({ priv := [.set .waitSleepJoin] } : Edits).apply threadState).priv.Has
      .waitSleepJoin := by simp [Edits.apply, Edit.apply]
  apply outline_storePriv (hpriv rfl) _ (by decide)
  · apply outline_load
    intro threadState asked _ _
    split_ifs
    · apply outline_enter_load
      intro threadState created asked hsettled _ hharmless _
      rw [if_neg (not_or.mpr hharmless)]
      exact outline_leave hsettled fun asked => hnext asked henter
    · exact hnext asked henter
  · simpa [Mark.after] using henter

theorem notMem_cleared {cleared : Prop} [Decidable cleared] {edit : Edit} {edits : List Edit}
    (hne : edit ≠ .clear .interrupted) (hedits : edit ∉ edits) :
    edit ∉ (if cleared then [.clear .interrupted] else []) ++ edits := by
  rw [List.mem_append, not_or]
  refine ⟨?_, hedits⟩
  split_ifs
  · simpa using hne
  · exact List.not_mem_nil

theorem outline_leaveRequested (result : Int) {threadState : ThreadState} {created : Bool}
    (hsettled : (Held.mk t threadState.pub created).Settled)
    (hasked : threadState.pub.Has .suspendRequested → asked = true) {next : Int → Prog T}
    (hnext : ∀ result asked, Outline t (next result) ⟨none, priv, waiting, asked⟩) :
    Outline t (leaveRequested t result threadState next)
      ⟨some ⟨t, threadState.pub, created⟩, priv, waiting, asked⟩ := by
  rw [leaveRequested]
  by_cases hrequested : threadState.pub.Has .suspendRequested
  · rw [if_pos hrequested]
    apply outline_storeSelf (hasked hrequested) suspends_leave
    apply outline_leave (hsettled.edit _ _ _)
    · exact fun _ => hnext _ _
    · exact notMem_cleared (by decide) (by decide)
    · exact notMem_cleared (by decide) (by decide)
  · rw [if_neg hrequested, ← List.append_nil (ite _ _ _)]
    apply outline_storePub (notMem_cleared (by decide) List.not_mem_nil)
    apply outline_leave (hsettled.edit _ _ _)
    · exact fun asked => hnext _ asked
    · exact notMem_cleared (by decide) List.not_mem_nil
    · exact notMem_cleared (by decide) List.not_mem_nil

theorem outline_ilThreadLeaveWaitState (result : Int) {next : Int → Prog T}
    (hnext : ∀ {priv : Half} result asked, ¬ priv.Has .waitSleepJoin →
      Outline t (next result) ⟨none, priv, false, asked⟩) :
    Outline t (ilThreadLeaveWaitState t result next) ⟨none, priv, true, asked⟩ := by
  apply outline_load
  intro threadState asked hpriv _
  have hleave : ¬ (({ priv := [.clear .waitSleepJoin] } : Edits).apply threadState).priv.Has
      .waitSleepJoin := by simp [Edits.apply, Edit.apply]
  apply outline_storePriv (hpriv rfl) _ (by decide)
  · apply outline_load
    intro threadState asked _ _
    split_ifs
    · apply outline_enter_load
      intro threadState created asked hsettled _ _ hmet
      apply outline_leaveRequested result hsettled fun hrequested => hmet (.inr ⟨rfl, hrequested⟩)
      exact fun result asked => hnext result asked hleave
    · exact hnext result asked hleave
  · simpa [Mark.after] using hleave

theorem outline_checks (locks : Nat) {next : Prog T}
    (hnext : ∀ asked, Outline t next ⟨none, priv, waiting, asked⟩) :
    Outline t (checks locks next) ⟨none, priv, waiting, asked⟩ := by
  induction locks generalizing asked with
  | zero => exact hnext asked
  | succ locks ih => exact ⟨rfl, fun _ => ih⟩

theorem outline_ilThreadSleep (locks : Nat) :
    Outline t (ilThreadSleep t locks) ⟨none, priv, false, asked⟩ := by
  apply outline_ilThreadEnterWaitState
  intro priv asked _
  rw [if_neg (not_not.mpr rfl)]
  apply outline_checks
  intro asked
  refine ⟨rfl, rfl, fun result => ?_⟩
  apply outline_ilThreadLeaveWaitState
  exact fun _ _ _ => ⟨rfl, rfl⟩

theorem outline_call (call : Call T) (hsteady : ¬ priv.Has .waitSleepJoin)
    (hasked : call.asksSelf t = true → asked = true) :
    Outline t (call.prog t) ⟨none, priv, false, asked⟩ := by
  cases call with
  | start thread => exact outline_ilThreadStart thread
  | suspendRequest thread requestOnly =>
    apply outline_ilThreadSuspendRequest
    exact fun heq => hasked (decide_eq_true heq)
  | resume thread => exact outline_ilThreadResume thread fun _ => ⟨rfl, rfl⟩
  | interrupt thread => exact outline_ilThreadInterrupt thread
  | selfAborting => exact outline_ilThreadSelfAborting hsteady
  | abort thread => exact outline_ilThreadAbort thread
  | abortReset => exact outline_ilThreadAbortReset hsteady
  | join thread => exact outline_ilThreadJoin thread
  | sleep locks => exact outline_ilThreadSleep locks
  | leaveOther => exact outline_checks 1 fun _ => ⟨rfl, rfl⟩

end Operations

end Pnet.Support.ThreadWord
