import Pnet.Support.ThreadCount

/-! The counts are right between the calls as long as no thread takes its last look at its state word
while its background flag is being changed. -/
namespace Pnet.Support.Thread

open Lib

namespace Call

/-- The call is in the critical section of its thread's lock. -/
def holds : Call → Bool
  | startLoad _ | startStore _ | startAdjust _ | runLeave | setLoad _ | setStore _ _
  | setAdjust _ | leave => true
  | _ => false

/-- The call runs the thread, which has not stopped yet. -/
def runs : Call → Bool
  | runEnter | runLeave | runStart | runFunction | runStop _ => true
  | _ => false

/-- What the call knows of the state word. -/
def Fine (state : ThreadState) : Call → Prop
  | startStore threadState => threadState.pub = state.pub ∧ state.pub.Has .unstarted
  | runEnter => ¬ state.priv.Has .stopped
  | runLeave | runStart | runFunction => state.Live
  | runStop threadState =>
    state.Live ∧ (threadState.pub.Has .background ↔ state.pub.Has .background)
  | setStore flag threadState => threadState.pub = state.pub ∧
    (threadState.priv.Has .stopped ↔ state.priv.Has .stopped) ∧
    ¬ (state.pub.Has .background ↔ flag = true)
  | _ => True

/-- By how much the call will still adjust the number of threads. -/
def pendingThreads : Call → Int
  | startAdjust _ => 1
  | runAdjust _ => -1
  | _ => 0

def pendingBackground : Call → Int
  | startAdjust isBackground => if isBackground then 1 else 0
  | runAdjust isBackground => if isBackground then -1 else 0
  | setAdjust numBackgroundThreadsAdjust => numBackgroundThreadsAdjust
  | _ => 0

end Call

open Call

/-! ### One thread -/

/-- A thread's lock is held by one call at most, and one call at most runs it. -/
structure ILThread.Sound (thread : ILThread) : Prop where
  fresh : thread.state.pub.Has .unstarted → ¬ thread.state.priv.Has .stopped
  lock : thread.calls.countP (holds ·) = thread.locked.toNat
  once : thread.calls.countP (runs ·) ≤ 1
  start : thread.state.pub.Has .unstarted →
    thread.calls.countP (runs ·) = 0 ∨ ∃ threadState, startStore threadState ∈ thread.calls
  fine : ∀ call ∈ thread.calls, call.Fine thread.state
  apart : ∀ {threadState}, runStop threadState ∈ thread.calls →
    ∀ flag threadState', setStore flag threadState' ∉ thread.calls

section Step

variable {state state' : ThreadState} {locked locked' : Bool} {call other : Call}
  {rest : Multiset Call} {new : List Call}

theorem countP_new (p : Call → Bool) : (↑new + rest : Multiset Call).countP (p ·) =
    new.countP p + rest.countP (p ·) := by
  rw [Multiset.countP_add, Multiset.coe_countP]
  simp

theorem countP_call (p : Call → Bool) : (call ::ₘ rest).countP (p ·) =
    (if p call = true then 1 else 0) + rest.countP (p ·) := by
  rw [Multiset.countP_cons, Nat.add_comm]

/-- A lock that is held by a call is held by no other one. -/
theorem ILThread.Sound.not_holds (h : ILThread.Sound ⟨state, locked, call ::ₘ rest⟩)
    (hcall : call.holds = true) (hother : other ∈ rest) : other.holds = false := by
  by_contra hholds
  have hpos : 0 < rest.countP (holds ·) :=
    Multiset.countP_pos.mpr ⟨other, hother, Bool.not_eq_false _ ▸ hholds⟩
  have hlock := h.lock
  dsimp only at hlock
  rw [countP_call, if_pos hcall] at hlock
  have hle := locked.toNat_le
  omega

theorem ILThread.Sound.not_runs (h : ILThread.Sound ⟨state, locked, call ::ₘ rest⟩)
    (hcall : call.runs = true) (hother : other ∈ rest) : other.runs = false := by
  by_contra hruns
  have hpos : 0 < rest.countP (runs ·) :=
    Multiset.countP_pos.mpr ⟨other, hother, Bool.not_eq_false _ ▸ hruns⟩
  have honce := h.once
  dsimp only at honce
  rw [countP_call, if_pos hcall] at honce
  omega

theorem ILThread.Sound.fine_rest (h : ILThread.Sound ⟨state, locked, call ::ₘ rest⟩)
    (hother : other ∈ rest) : other.Fine state :=
  h.fine other (Multiset.mem_cons_of_mem hother)

theorem ILThread.Sound.fine_call (h : ILThread.Sound ⟨state, locked, call ::ₘ rest⟩) :
    call.Fine state :=
  h.fine call (Multiset.mem_cons_self call rest)

/-- A call between its look at the word and its store. -/
def Call.Looking : Call → Prop
  | runStop _ => True
  | setStore _ _ => True
  | _ => False

theorem ILThread.Sound.apart_rest (h : ILThread.Sound ⟨state, locked, call ::ₘ rest⟩)
    (hnew : ∀ call ∈ new, ¬ call.Looking) {threadState : ThreadState}
    (hstop : runStop threadState ∈ (↑new + rest : Multiset Call)) (flag : Bool)
    (threadState' : ThreadState) : setStore flag threadState' ∉ (↑new + rest : Multiset Call) := by
  intro hset
  rcases Multiset.mem_add.mp hstop with hstop | hstop
  · exact hnew _ (Multiset.mem_coe.mp hstop) trivial
  · rcases Multiset.mem_add.mp hset with hset | hset
    · exact hnew _ (Multiset.mem_coe.mp hset) trivial
    · exact h.apart (Multiset.mem_cons_of_mem hstop) flag threadState'
        (Multiset.mem_cons_of_mem hset)

/-- What is left to check of a step. -/
theorem ILThread.Sound.becomes (h : ILThread.Sound ⟨state, locked, call ::ₘ rest⟩)
    (hfresh : state'.pub.Has .unstarted → state.pub.Has .unstarted ∧ ¬ state'.priv.Has .stopped ∧
      ∀ threadState, call ≠ startStore threadState)
    (hlock : new.countP holds + locked.toNat = (if call.holds = true then 1 else 0) + locked'.toNat)
    (hruns : new.countP runs ≤ if call.runs = true then 1 else 0)
    (hnew : ∀ call ∈ new, call.Fine state') (hrest : ∀ call ∈ rest, call.Fine state')
    (hapart : ∀ {threadState}, runStop threadState ∈ (↑new + rest : Multiset Call) →
      ∀ flag threadState', setStore flag threadState' ∉ (↑new + rest : Multiset Call)) :
    ILThread.Sound ⟨state', locked', ↑new + rest⟩ := by
  have hold := h.lock
  have honce := h.once
  dsimp only at hold honce
  rw [countP_call] at hold honce
  constructor
  · exact fun hunstarted => (hfresh hunstarted).2.1
  · dsimp only
    rw [countP_new]
    omega
  · dsimp only
    rw [countP_new]
    omega
  · intro hunstarted
    obtain ⟨hstarted, -, hcall⟩ := hfresh hunstarted
    rcases h.start hstarted with hzero | ⟨threadState, hmem⟩
    · left
      dsimp only at hzero ⊢
      rw [countP_call] at hzero
      rw [countP_new]
      omega
    · right
      rcases Multiset.mem_cons.mp hmem with heq | hmem
      · exact absurd heq.symm (hcall threadState)
      · exact ⟨threadState, Multiset.mem_add.mpr (Or.inr hmem)⟩
  · intro other hother
    rcases Multiset.mem_add.mp hother with hother | hother
    · exact hnew other (Multiset.mem_coe.mp hother)
    · exact hrest other hother
  · exact hapart

/-- A step that leaves the state word alone. -/
theorem ILThread.Sound.goesOn (h : ILThread.Sound ⟨state, locked, call ::ₘ rest⟩)
    (hcall : ∀ threadState, call ≠ startStore threadState)
    (hlock : new.countP holds + locked.toNat = (if call.holds = true then 1 else 0) + locked'.toNat)
    (hruns : new.countP runs ≤ if call.runs = true then 1 else 0)
    (hnew : ∀ call ∈ new, call.Fine state ∧ ¬ call.Looking) :
    ILThread.Sound ⟨state, locked', ↑new + rest⟩ :=
  h.becomes (fun hunstarted => ⟨hunstarted, h.fresh hunstarted, hcall⟩) hlock hruns
    (fun _ hmem => (hnew _ hmem).1) (fun _ hother => h.fine_rest hother)
    (h.apart_rest fun _ hmem => (hnew _ hmem).2)

/-- A call that runs a thread whose lock is free knows that it has been started. -/
theorem ILThread.Sound.live (h : ILThread.Sound ⟨state, false, runEnter ::ₘ rest⟩) :
    state.Live := by
  refine ⟨fun hunstarted => ?_, h.fine_call⟩
  rcases h.start hunstarted with hzero | ⟨threadState, hmem⟩
  · dsimp only at hzero
    rw [countP_call] at hzero
    simp [runs] at hzero
  · have hlock : Multiset.countP (holds ·) (runEnter ::ₘ rest) = 0 := h.lock
    exact absurd rfl (Multiset.countP_eq_zero.mp hlock _ hmem)

/-! ### The steps that store -/

theorem ILThread.Sound.startStore {threadState : ThreadState}
    (h : ILThread.Sound ⟨state, locked, .startStore threadState ::ₘ rest⟩) (isBackground : Bool) :
    ILThread.Sound ⟨{ state with pub := threadState.pub.clear .unstarted }, locked,
      ↑[startAdjust isBackground] + rest⟩ := by
  obtain ⟨hpub, hunstarted⟩ := h.fine_call
  apply h.becomes
  · intro hnot
    simp at hnot
  · simp [holds]
  · simp [runs]
  · simp [Fine]
  · intro other hother
    have hfine := h.fine_rest hother
    have hholds := h.not_holds rfl hother
    rw [hpub]
    cases other with
    | runLeave => cases hholds
    | startStore threadState => cases hholds
    | setStore flag threadState => cases hholds
    | runStart => exact absurd hunstarted hfine.1
    | runFunction => exact absurd hunstarted hfine.1
    | runStop threadState => exact absurd hunstarted hfine.1.1
    | runEnter => exact hfine
    | _ => trivial
  · exact h.apart_rest (by simp [Looking])

theorem ILThread.Sound.runStart (h : ILThread.Sound ⟨state, locked, .runStart ::ₘ rest⟩) :
    ILThread.Sound ⟨{ state with priv := 0 }, locked, ↑[runFunction] + rest⟩ := by
  have hlive : state.Live := h.fine_call
  apply h.becomes
  · intro hunstarted
    exact absurd hunstarted hlive.1
  · simp [holds]
  · simp [runs]
  · simp [Fine, ThreadState.Live, hlive.1]
  · intro other hother
    have hfine := h.fine_rest hother
    have hruns := h.not_runs rfl hother
    cases other with
    | runEnter => cases hruns
    | runLeave => cases hruns
    | runStart => cases hruns
    | runFunction => cases hruns
    | runStop threadState => cases hruns
    | startStore threadState => exact hfine
    | setStore flag threadState =>
      obtain ⟨hpub, hstopped, hflag⟩ := hfine
      refine ⟨hpub, ?_, hflag⟩
      simp [hstopped, hlive.2]
    | _ => trivial
  · exact h.apart_rest (by simp [Looking])

theorem ILThread.Sound.runStop {threadState : ThreadState}
    (h : ILThread.Sound ⟨state, locked, .runStop threadState ::ₘ rest⟩) (isBackground : Bool) :
    ILThread.Sound ⟨{ state with priv := threadState.priv.set .stopped }, locked,
      ↑[runAdjust isBackground] + rest⟩ := by
  have hlive : state.Live := h.fine_call.1
  apply h.becomes
  · intro hunstarted
    exact absurd hunstarted hlive.1
  · simp [holds]
  · simp [runs]
  · simp [Fine]
  · intro other hother
    have hfine := h.fine_rest hother
    have hruns := h.not_runs rfl hother
    cases other with
    | runEnter => cases hruns
    | runLeave => cases hruns
    | runStart => cases hruns
    | runFunction => cases hruns
    | runStop threadState => cases hruns
    | startStore threadState => exact hfine
    | setStore flag threadState' =>
      have hset := h.apart (Multiset.mem_cons_self _ rest) flag threadState'
      exact absurd (Multiset.mem_cons_of_mem hother) hset
    | _ => trivial
  · exact h.apart_rest (by simp [Looking])

theorem has_putBackground {flag : Flag} (hflag : flag ≠ .background) (b : Bool) :
    (state.putBackground b).Has flag ↔ state.pub.Has flag := by
  rw [ThreadState.putBackground]
  cases b
  · simp [hflag]
  · simp [hflag]

theorem ILThread.Sound.setStore {flag : Bool} {threadState : ThreadState}
    (h : ILThread.Sound ⟨state, locked, .setStore flag threadState ::ₘ rest⟩)
    (hholds : new.countP holds = 1) (hruns : new.countP runs = 0)
    (hnew : ∀ call ∈ new, (∀ state, call.Fine state) ∧ ¬ call.Looking) :
    ILThread.Sound ⟨{ state with pub := threadState.putBackground flag }, locked, ↑new + rest⟩ := by
  obtain ⟨hpub, -, -⟩ := h.fine_call
  have hunstarted : (threadState.putBackground flag).Has .unstarted ↔ state.pub.Has .unstarted := by
    rw [has_putBackground (by decide), hpub]
  have hlive : ThreadState.Live { state with pub := threadState.putBackground flag } ↔
      state.Live := by
    rw [ThreadState.Live, ThreadState.Live, hunstarted]
  apply h.becomes
  · intro hnot
    have hnot := hunstarted.mp hnot
    exact ⟨hnot, h.fresh hnot, nofun⟩
  · rw [hholds]
    rfl
  · rw [hruns]
    exact Nat.zero_le _
  · exact fun call hcall => (hnew call hcall).1 _
  · intro other hother
    have hfine := h.fine_rest hother
    have hlocked := h.not_holds rfl hother
    cases other with
    | runLeave => cases hlocked
    | startStore threadState => cases hlocked
    | setStore flag threadState => cases hlocked
    | runEnter => exact hfine
    | runStart => exact hlive.mpr hfine
    | runFunction => exact hlive.mpr hfine
    | runStop threadState' =>
      have hset := h.apart (Multiset.mem_cons_of_mem hother) flag threadState
      exact absurd (Multiset.mem_cons_self _ rest) hset
    | _ => trivial
  · exact h.apart_rest fun call hcall => (hnew call hcall).2

/-! ### All steps -/

/-- No background flag is being changed when a thread takes its last look at its word, and none is
looked at to be changed between that look and the store of the thread. -/
def Undisturbed (state : ThreadState) (call : Call) (calls : Multiset Call) : Prop :=
  match call with
  | .runFunction => ∀ flag threadState, Call.setStore flag threadState ∉ calls
  | .setLoad flag => (state.pub.Has .background ↔ flag = true) ∨
    ∀ threadState, Call.runStop threadState ∉ calls
  | _ => True

theorem ILThread.Sound.enter {effect : Effect}
    (h : ILThread.Sound ⟨state, locked, call ::ₘ rest⟩)
    (hcall : ∀ threadState, call ≠ .startStore threadState) (hholds : call.holds = false)
    (other : Call) (hother : other.holds = true) (hruns : other.runs = call.runs)
    (hfine : locked = false → other.Fine state) (hlooking : ¬ other.Looking)
    (heffect : enter state locked other = some effect) :
    ILThread.Sound ⟨effect.state, effect.locked, ↑effect.calls + rest⟩ := by
  rw [Thread.enter] at heffect
  split_ifs at heffect with hlocked
  cases heffect
  have hfree : locked = false := Bool.eq_false_iff.mpr hlocked
  apply h.goesOn hcall
  · simp [hother, hholds, hfree]
  · simp [hruns]
  · simp [hfine hfree, hlooking]

theorem ILThread.Sound.startLoad {created : Bool}
    (h : ILThread.Sound ⟨state, locked, .startLoad created ::ₘ rest⟩)
    (hunstarted : state.pub.Has .unstarted) :
    ILThread.Sound ⟨state, locked, ↑[Call.runEnter, .startStore state] + rest⟩ := by
  have hzero : rest.countP (runs ·) = 0 := by
    rcases h.start hunstarted with hzero | ⟨threadState, hmem⟩
    · dsimp only at hzero
      rw [countP_call] at hzero
      omega
    · rcases Multiset.mem_cons.mp hmem with heq | hmem
      · cases heq
      · cases h.not_holds rfl hmem
  have hold := h.lock
  dsimp only at hold
  rw [countP_call] at hold
  constructor
  · exact h.fresh
  · dsimp only
    rw [countP_new]
    exact hold
  · dsimp only
    rw [countP_new, hzero]
    exact Nat.le_refl 1
  · intro _
    exact Or.inr ⟨state, by simp⟩
  · intro other hother
    rcases Multiset.mem_add.mp hother with hother | hother
    · simp only [Multiset.mem_coe, List.mem_cons, List.not_mem_nil, or_false] at hother
      rcases hother with rfl | rfl
      · exact h.fresh hunstarted
      · exact ⟨rfl, hunstarted⟩
    · exact h.fine_rest hother
  · exact h.apart_rest (by simp [Looking])

/-- A look at the word that is followed by a store. -/
theorem ILThread.Sound.looks (h : ILThread.Sound ⟨state, locked, call ::ₘ rest⟩)
    (hcall : ∀ threadState, call ≠ .startStore threadState) (other : Call)
    (hholds : other.holds = call.holds)
    (hruns : other.runs = call.runs) (hfine : other.Fine state)
    (hapart : ∀ {threadState}, Call.runStop threadState ∈ (↑[other] + rest : Multiset Call) →
      ∀ flag threadState', Call.setStore flag threadState' ∉ (↑[other] + rest : Multiset Call)) :
    ILThread.Sound ⟨state, locked, ↑[other] + rest⟩ := by
  apply h.becomes
  · exact fun hunstarted => ⟨hunstarted, h.fresh hunstarted, hcall⟩
  · simp [hholds]
  · simp [hruns]
  · simp [hfine]
  · exact fun _ hother => h.fine_rest hother
  · exact hapart

theorem ILThread.Sound.next {effect : Effect}
    (h : ILThread.Sound ⟨state, locked, call ::ₘ rest⟩) (hallowed : Undisturbed state call rest)
    (heffect : call.next state locked = some effect) :
    ILThread.Sound ⟨effect.state, effect.locked, ↑effect.calls + rest⟩ := by
  cases call with
  | startCheck created =>
    rw [Call.next] at heffect
    split_ifs at heffect
    · cases heffect
      exact h.goesOn nofun rfl (by simp [runs]) (by simp [Fine, Looking])
    · cases heffect
      exact h.goesOn nofun rfl (by simp [runs]) (by simp [Fine, Looking])
  | startEnter created => exact h.enter nofun rfl (.startLoad created) rfl rfl (fun _ => trivial) id heffect
  | startLoad created =>
    rw [Call.next] at heffect
    split_ifs at heffect with hcreated
    · cases heffect
      exact h.startLoad hcreated.1
    · cases heffect
      exact h.goesOn nofun rfl (by simp [runs]) (by simp [Fine, Looking])
  | startStore threadState =>
    cases heffect
    exact h.startStore _
  | startAdjust isBackground =>
    cases heffect
    exact h.goesOn nofun rfl (by simp [runs]) (by simp [Fine, Looking])
  | runEnter =>
    refine h.enter nofun rfl .runLeave rfl rfl (fun hfree => ?_) id heffect
    subst hfree
    exact h.live
  | runLeave =>
    cases heffect
    have hlive : state.Live := h.fine_call
    have hlocked : locked = true := by
      have hlock := h.lock
      dsimp only at hlock
      rw [countP_call] at hlock
      cases locked
      · simp [holds] at hlock
      · rfl
    apply h.goesOn nofun
    · simp [holds, hlocked]
    · simp [runs]
    · simp [Fine, Looking, hlive]
  | runStart =>
    cases heffect
    exact h.runStart
  | runFunction =>
    cases heffect
    have hlive : state.Live := h.fine_call
    apply h.looks nofun (.runStop state) rfl rfl ⟨hlive, Iff.rfl⟩
    intro _ _ flag threadState' hset
    rcases Multiset.mem_add.mp hset with hset | hset
    · simp at hset
    · exact hallowed flag threadState' hset
  | runStop threadState =>
    cases heffect
    exact h.runStop _
  | runAdjust isBackground =>
    cases heffect
    exact h.goesOn nofun rfl (by simp [runs]) (by simp [Fine, Looking])
  | setEnter flag => exact h.enter nofun rfl (.setLoad flag) rfl rfl (fun _ => trivial) id heffect
  | setLoad flag =>
    rw [Call.next] at heffect
    split_ifs at heffect with hflag
    · cases heffect
      exact h.goesOn nofun rfl (by simp [runs]) (by simp [Fine, Looking])
    · cases heffect
      apply h.looks nofun (.setStore flag state) rfl rfl ⟨rfl, Iff.rfl, hflag⟩
      intro threadState hstop _ _ _
      rcases Multiset.mem_add.mp hstop with hstop | hstop
      · simp at hstop
      · exact (hallowed.resolve_left hflag) threadState hstop
  | setStore flag threadState =>
    dsimp only [Call.next] at heffect
    by_cases hlive : threadState.Live
    · rw [if_pos hlive] at heffect
      cases heffect
      exact h.setStore rfl rfl (by simp [Fine, Looking])
    · rw [if_neg hlive] at heffect
      cases heffect
      exact h.setStore rfl rfl (by simp [Fine, Looking])
  | setAdjust numBackgroundThreadsAdjust =>
    cases heffect
    exact h.goesOn nofun rfl (by simp [runs]) (by simp [Fine, Looking])
  | leave =>
    cases heffect
    have hlocked : locked = true := by
      have hlock := h.lock
      dsimp only at hlock
      rw [countP_call] at hlock
      cases locked
      · simp [holds] at hlock
      · rfl
    apply h.goesOn nofun
    · simp [holds, hlocked]
    · simp [runs]
    · simp

end Step

/-! ### The counts -/

def ThreadState.live (state : ThreadState) : Int := if state.Live then 1 else 0

def ThreadState.background (state : ThreadState) : Int :=
  if state.Live ∧ state.pub.Has .background then 1 else 0

/-- What a thread adds to a count: a value of its state word, less what is still to be adjusted. -/
def ILThread.share (value : ThreadState → Int) (pending : Call → Int) (thread : ILThread) : Int :=
  value thread.state - (thread.calls.map pending).sum

section Share

variable {state : ThreadState} {locked : Bool} {call : Call} {rest : Multiset Call}
  {effect : Effect}

/-- The step changes the value of the word by what is still to be adjusted, or adjusts it. -/
def Balances (value : ThreadState → Int) (pending : Call → Int) (state : ThreadState) (call : Call)
    (effect : Effect) (adjust : Int) : Prop :=
  value effect.state - (effect.calls.map pending).sum = value state - pending call + adjust

/-- The step keeps both counts in balance. -/
def KeepsCounts (state : ThreadState) (call : Call) (effect : Effect) : Prop :=
  Balances ThreadState.live pendingThreads state call effect (effect.adjust.getD (0, 0)).1 ∧
    Balances ThreadState.background pendingBackground state call effect
      (effect.adjust.getD (0, 0)).2

theorem share_next {value : ThreadState → Int} {pending : Call → Int} {adjust : Int}
    (h : Balances value pending state call effect adjust) :
    ILThread.share value pending ⟨effect.state, effect.locked, ↑effect.calls + rest⟩ =
      ILThread.share value pending ⟨state, locked, call ::ₘ rest⟩ + adjust := by
  rw [Balances] at h
  simp only [ILThread.share, Multiset.map_add, Multiset.sum_add, Multiset.map_cons,
    Multiset.sum_cons, Multiset.map_coe, Multiset.sum_coe]
  omega

theorem balances_same {value : ThreadState → Int} {pending : Call → Int} {adjust : Int}
    (hstate : effect.state = state)
    (h : (effect.calls.map pending).sum + adjust = pending call) :
    Balances value pending state call effect adjust := by
  rw [Balances, hstate]
  omega

theorem balances_enter {other : Call} (hthreads : pendingThreads other = pendingThreads call)
    (hbackground : pendingBackground other = pendingBackground call)
    (heffect : enter state locked other = some effect) :
    KeepsCounts state call effect := by
  rw [enter] at heffect
  split_ifs at heffect
  cases heffect
  exact ⟨balances_same rfl (by simp [hthreads]), balances_same rfl (by simp [hbackground])⟩

/-- What is stored is what the counts are still to be adjusted by. -/
theorem ILThread.Sound.balances_startStore {threadState : ThreadState}
    (h : ILThread.Sound ⟨state, locked, .startStore threadState ::ₘ rest⟩)
    (heffect : (Call.startStore threadState).next state locked = some effect) :
    KeepsCounts state (.startStore threadState) effect := by
  obtain ⟨hpub, hunstarted⟩ := h.fine_call
  have hstopped := h.fresh hunstarted
  cases heffect
  simp only [KeepsCounts, Balances, ThreadState.live, ThreadState.background, ThreadState.Live, hpub]
  constructor
  · simp [pendingThreads, hunstarted, hstopped]
  · simp [pendingBackground, hunstarted, hstopped]

theorem ILThread.Sound.balances_runStart
    (h : ILThread.Sound ⟨state, locked, .runStart ::ₘ rest⟩)
    (heffect : Call.runStart.next state locked = some effect) :
    KeepsCounts state .runStart effect := by
  have hlive : state.Live := h.fine_call
  obtain ⟨hstarted, hstopped⟩ := hlive
  cases heffect
  simp only [KeepsCounts, Balances, ThreadState.live, ThreadState.background, ThreadState.Live]
  constructor
  · simp [pendingThreads, hstarted, hstopped]
  · simp [pendingBackground, hstarted, hstopped]

theorem ILThread.Sound.balances_runStop {threadState : ThreadState}
    (h : ILThread.Sound ⟨state, locked, .runStop threadState ::ₘ rest⟩)
    (heffect : (Call.runStop threadState).next state locked = some effect) :
    KeepsCounts state (.runStop threadState) effect := by
  obtain ⟨⟨hstarted, hstopped⟩, hbackground⟩ := h.fine_call
  cases heffect
  simp only [KeepsCounts, Balances, ThreadState.live, ThreadState.background, ThreadState.Live]
  constructor
  · simp [pendingThreads, hstarted, hstopped]
  · by_cases hflag : state.pub.Has .background
    · simp [pendingBackground, hstarted, hstopped, hbackground, hflag]
    · simp [pendingBackground, hstarted, hstopped, hbackground, hflag]

theorem ILThread.Sound.balances_setStore {flag : Bool} {threadState : ThreadState}
    (h : ILThread.Sound ⟨state, locked, .setStore flag threadState ::ₘ rest⟩)
    (heffect : (Call.setStore flag threadState).next state locked = some effect) :
    KeepsCounts state (.setStore flag threadState) effect := by
  obtain ⟨hpub, hstopped, hchange⟩ := h.fine_call
  have hseen : threadState.Live ↔ state.Live := by
    rw [ThreadState.Live, ThreadState.Live, hpub, hstopped]
  have hlive : ThreadState.Live { state with pub := threadState.putBackground flag } ↔
      state.Live := by
    rw [ThreadState.Live, ThreadState.Live, has_putBackground (by decide), hpub]
  have hflag : (threadState.putBackground flag).Has .background ↔ flag = true := by
    rw [ThreadState.putBackground]
    cases flag
    · simp
    · simp
  dsimp only [Call.next] at heffect
  by_cases hnow : state.Live
  · rw [if_pos (hseen.mpr hnow)] at heffect
    cases heffect
    simp only [KeepsCounts, Balances, ThreadState.live, ThreadState.background, hlive, hflag, hnow, true_and]
    refine ⟨rfl, ?_⟩
    cases flag
    · have hold : state.pub.Has .background := by simpa using hchange
      simp [pendingBackground, hold]
    · have hold : ¬ state.pub.Has .background := by simpa using hchange
      simp [pendingBackground, hold]
  · rw [if_neg (mt hseen.mp hnow)] at heffect
    cases heffect
    simp only [KeepsCounts, Balances, ThreadState.live, ThreadState.background, hlive, hnow, false_and]
    exact ⟨rfl, rfl⟩

theorem ILThread.Sound.balances (h : ILThread.Sound ⟨state, locked, call ::ₘ rest⟩)
    (heffect : call.next state locked = some effect) :
    KeepsCounts state call effect := by
  cases call with
  | startCheck created =>
    rw [Call.next] at heffect
    split_ifs at heffect
    · cases heffect
      exact ⟨balances_same rfl rfl, balances_same rfl rfl⟩
    · cases heffect
      exact ⟨balances_same rfl rfl, balances_same rfl rfl⟩
  | startEnter created => exact @balances_enter _ _ _ _ (.startLoad created) rfl rfl heffect
  | startLoad created =>
    rw [Call.next] at heffect
    split_ifs at heffect
    · cases heffect
      exact ⟨balances_same rfl rfl, balances_same rfl rfl⟩
    · cases heffect
      exact ⟨balances_same rfl rfl, balances_same rfl rfl⟩
  | startStore threadState => exact h.balances_startStore heffect
  | startAdjust isBackground =>
    cases heffect
    exact ⟨balances_same rfl rfl, balances_same rfl (by simp [pendingBackground])⟩
  | runEnter => exact @balances_enter _ _ _ _ .runLeave rfl rfl heffect
  | runLeave =>
    cases heffect
    exact ⟨balances_same rfl rfl, balances_same rfl rfl⟩
  | runStart => exact h.balances_runStart heffect
  | runFunction =>
    cases heffect
    exact ⟨balances_same rfl rfl, balances_same rfl rfl⟩
  | runStop threadState => exact h.balances_runStop heffect
  | runAdjust isBackground =>
    cases heffect
    exact ⟨balances_same rfl rfl, balances_same rfl (by simp [pendingBackground])⟩
  | setEnter flag => exact @balances_enter _ _ _ _ (.setLoad flag) rfl rfl heffect
  | setLoad flag =>
    rw [Call.next] at heffect
    split_ifs at heffect
    · cases heffect
      exact ⟨balances_same rfl rfl, balances_same rfl rfl⟩
    · cases heffect
      exact ⟨balances_same rfl rfl, balances_same rfl rfl⟩
  | setStore flag threadState => exact h.balances_setStore heffect
  | setAdjust numBackgroundThreadsAdjust =>
    cases heffect
    exact ⟨balances_same rfl rfl, balances_same rfl (by simp [pendingBackground])⟩
  | leave =>
    cases heffect
    exact ⟨balances_same rfl rfl, balances_same rfl rfl⟩

end Share

/-! ### The system -/

namespace System

variable {T : Type}

/-- Each count is the sum of what the threads add to it. -/
structure Inv (s : System T) : Prop where
  sound : ∀ t, (s.thread t).Sound
  threads : Tally (fun t => (s.thread t).share ThreadState.live pendingThreads) s.numThreads
  background : Tally (fun t => (s.thread t).share ThreadState.background pendingBackground)
    s.numBackgroundThreads
  event : s.noFgThreadsEvent = decide (s.numThreads - s.numBackgroundThreads = 1)

/-- No count is being changed: threads are in their function or on the way to it, and no other call
is in progress. -/
def Quiet (s : System T) : Prop :=
  ∀ t, ∀ call ∈ (s.thread t).calls,
    call = .runEnter ∨ call = .runLeave ∨ call = .runStart ∨ call = .runFunction

/-- The counts are those of the threads that have been started and not stopped. -/
structure Counted (s : System T) : Prop where
  numThreads : s.numThreads = ({t | (s.thread t).state.Live}.ncard : Int)
  numBackgroundThreads : s.numBackgroundThreads =
    ({t | (s.thread t).state.Live ∧ (s.thread t).state.pub.Has .background}.ncard : Int)
  noFgThreadsEvent : s.noFgThreadsEvent = true ↔
    {t | (s.thread t).state.Live ∧ ¬ (s.thread t).state.pub.Has .background}.ncard = 1

theorem share_quiet {s : System T} (hquiet : s.Quiet) (value : ThreadState → Int)
    (pending : Call → Int) (hpending : pending .runEnter = 0 ∧ pending .runLeave = 0 ∧
      pending .runStart = 0 ∧ pending .runFunction = 0) :
    (fun t => (s.thread t).share value pending) = fun t => value (s.thread t).state := by
  funext t
  have hsum : ((s.thread t).calls.map pending).sum = 0 := by
    apply Multiset.sum_eq_zero
    intro x hx
    obtain ⟨call, hcall, rfl⟩ := Multiset.mem_map.mp hx
    rcases hquiet t call hcall with rfl | rfl | rfl | rfl
    · exact hpending.1
    · exact hpending.2.1
    · exact hpending.2.2.1
    · exact hpending.2.2.2
  rw [ILThread.share, hsum, sub_zero]

theorem Inv.counted [DecidableEq T] {s : System T} (h : s.Inv) (hquiet : s.Quiet) :
    s.Counted := by
  have hthreads := h.threads
  have hbackground := h.background
  rw [share_quiet hquiet _ pendingThreads ⟨rfl, rfl, rfl, rfl⟩] at hthreads
  rw [share_quiet hquiet _ pendingBackground ⟨rfl, rfl, rfl, rfl⟩] at hbackground
  have hforeground : Tally (fun t => if (s.thread t).state.Live ∧
      ¬ (s.thread t).state.pub.Has .background then 1 else 0)
      (s.numThreads - s.numBackgroundThreads) := by
    convert hthreads.sub hbackground using 2 with t
    rw [ThreadState.live, ThreadState.background]
    split_ifs <;> first | rfl | omega | simp_all
  refine ⟨hthreads.eq_ncard, hbackground.eq_ncard, ?_⟩
  rw [h.event, decide_eq_true_eq, hforeground.eq_ncard]
  exact Nat.cast_eq_one

theorem thread_adjustCount (s : System T) (adjust : Option (Int × Int)) :
    (s.adjustCount adjust).thread = s.thread := by
  cases adjust <;> rfl

theorem numThreads_adjustCount (s : System T) (adjust : Option (Int × Int)) :
    (s.adjustCount adjust).numThreads = s.numThreads + (adjust.getD (0, 0)).1 := by
  cases adjust with
  | none => exact (Int.add_zero _).symm
  | some adjust => rfl

theorem numBackgroundThreads_adjustCount (s : System T) (adjust : Option (Int × Int)) :
    (s.adjustCount adjust).numBackgroundThreads =
      s.numBackgroundThreads + (adjust.getD (0, 0)).2 := by
  cases adjust with
  | none => exact (Int.add_zero _).symm
  | some adjust => rfl

theorem event_adjustCount {s : System T} (adjust : Option (Int × Int))
    (h : s.noFgThreadsEvent = decide (s.numThreads - s.numBackgroundThreads = 1)) :
    (s.adjustCount adjust).noFgThreadsEvent = decide ((s.adjustCount adjust).numThreads -
      (s.adjustCount adjust).numBackgroundThreads = 1) := by
  cases adjust with
  | none => exact h
  | some adjust => rfl

/-! ### Runs -/

variable [DecidableEq T]

theorem share_setThread (s : System T) (t : T) (thread : ILThread) (value : ThreadState → Int)
    (pending : Call → Int) : (fun t' => ((s.setThread t thread).thread t').share value pending) =
      Function.update (fun t' => (s.thread t').share value pending) t
        (thread.share value pending) := by
  funext t'
  by_cases heq : t' = t
  · subst heq
    simp [setThread]
  · simp [setThread, heq]

theorem sound_setThread {s : System T} (h : ∀ t, (s.thread t).Sound) {t : T} {thread : ILThread}
    (hthread : thread.Sound) (t' : T) : ((s.setThread t thread).thread t').Sound := by
  by_cases heq : t' = t
  · subst heq
    simpa [setThread] using hthread
  · simpa [setThread, heq] using h t'

theorem sound_rest {state : ThreadState} (h : ¬ state.priv.Has .stopped) :
    ILThread.Sound { state } := by
  constructor
  · exact fun _ => h
  · rfl
  · exact Nat.zero_le 1
  · exact fun _ => Or.inl rfl
  · exact fun _ hcall => absurd hcall (Multiset.notMem_zero _)
  · exact fun hstop => absurd hstop (Multiset.notMem_zero _)

theorem inv_init (main : T) : (init main).Inv := by
  have hthread : ∀ t, (init main).thread t =
      { state := if t = main then {} else { pub := (0 : Half).set .unstarted } } := fun _ => rfl
  constructor
  · intro t
    rw [hthread]
    apply sound_rest
    split_ifs <;> exact Half.not_has_zero
  · have hmain := (@Tally.zero T).update main 1
    convert hmain using 1
    · funext t
      rw [hthread]
      by_cases heq : t = main
      · rw [if_pos heq, heq, Function.update_self]
        decide
      · rw [if_neg heq, Function.update_of_ne heq]
        decide
    · rfl
  · convert @Tally.zero T using 1
    · funext t
      rw [hthread]
      split_ifs <;> decide
    · rfl
  · rfl

theorem sound_make {thread : ILThread} (h : thread.Sound) {call : Call} (hbegins : call.begins) :
    ILThread.Sound { thread with calls := call ::ₘ thread.calls } := by
  have hquiet : call.holds = false ∧ call.runs = false ∧ (∀ state, call.Fine state) ∧
      ¬ call.Looking := by
    cases call with
    | startCheck created => simp [holds, runs, Fine, Looking]
    | setEnter flag => simp [holds, runs, Fine, Looking]
    | _ => cases hbegins
  obtain ⟨hholds, hruns, hfine, hlooking⟩ := hquiet
  constructor
  · exact h.fresh
  · dsimp only
    rw [countP_call, hholds]
    simpa using h.lock
  · dsimp only
    rw [countP_call, hruns]
    simpa using h.once
  · intro hunstarted
    dsimp only
    rw [countP_call, hruns]
    rcases h.start hunstarted with hzero | ⟨threadState, hmem⟩
    · exact Or.inl (by simpa using hzero)
    · exact Or.inr ⟨threadState, Multiset.mem_cons_of_mem hmem⟩
  · intro other hother
    rcases Multiset.mem_cons.mp hother with rfl | hother
    · exact hfine _
    · exact h.fine other hother
  · intro threadState hstop flag threadState' hset
    rcases Multiset.mem_cons.mp hstop with rfl | hstop
    · exact hlooking trivial
    · rcases Multiset.mem_cons.mp hset with rfl | hset
      · exact hlooking trivial
      · exact h.apart hstop flag threadState' hset

theorem share_make (thread : ILThread) {call : Call} (hbegins : call.begins)
    (value : ThreadState → Int) {pending : Call → Int} (hpending : ∀ flag,
      pending (.startCheck flag) = 0 ∧ pending (.setEnter flag) = 0) :
    ILThread.share value pending { thread with calls := call ::ₘ thread.calls } =
      thread.share value pending := by
  have hzero : pending call = 0 := by
    cases call with
    | startCheck created => exact (hpending created).1
    | setEnter flag => exact (hpending flag).2
    | _ => cases hbegins
  rw [ILThread.share, ILThread.share, Multiset.map_cons, Multiset.sum_cons, hzero, zero_add]

/-- A label is undisturbed when the step that it stands for is. -/
def Calm (s : System T) : Label T → Prop
  | .make _ _ => True
  | .step t call => Undisturbed (s.thread t).state call ((s.thread t).calls.erase call)

theorem Inv.make {s : System T} (h : s.Inv) (t : T) {call : Call} (hbegins : call.begins) :
    (s.setThread t { s.thread t with calls := call ::ₘ (s.thread t).calls }).Inv := by
  constructor
  · exact sound_setThread h.sound (sound_make (h.sound t) hbegins)
  · rw [share_setThread, share_make _ hbegins _ fun _ => ⟨rfl, rfl⟩, Function.update_eq_self]
    exact h.threads
  · rw [share_setThread, share_make _ hbegins _ fun _ => ⟨rfl, rfl⟩, Function.update_eq_self]
    exact h.background
  · exact h.event

theorem Inv.step {s : System T} (h : s.Inv) {t : T} {call : Call} {rest : Multiset Call}
    (hcalls : (s.thread t).calls = call ::ₘ rest)
    (hcalm : Undisturbed (s.thread t).state call rest) {effect : Effect}
    (heffect : call.next (s.thread t).state (s.thread t).locked = some effect) :
    ((s.setThread t { state := effect.state, locked := effect.locked,
                      calls := effect.calls + rest }).adjustCount effect.adjust).Inv := by
  have hthread : s.thread t = ⟨(s.thread t).state, (s.thread t).locked, call ::ₘ rest⟩ := by
    rw [← hcalls]
  have hsound := h.sound t
  rw [hthread] at hsound
  obtain ⟨hthreads, hbackground⟩ := hsound.balances heffect
  have hshare := @share_next _ (s.thread t).locked _ rest _ _ _ _ hthreads
  have hshare' := @share_next _ (s.thread t).locked _ rest _ _ _ _ hbackground
  rw [← hthread] at hshare hshare'
  constructor
  · rw [thread_adjustCount]
    exact sound_setThread h.sound (hsound.next hcalm heffect)
  · rw [thread_adjustCount, share_setThread, numThreads_adjustCount, hshare]
    have hupdate := h.threads.update t
      ((s.thread t).share ThreadState.live pendingThreads + (effect.adjust.getD (0, 0)).1)
    rwa [add_sub_cancel_left] at hupdate
  · rw [thread_adjustCount, share_setThread, numBackgroundThreads_adjustCount, hshare']
    have hupdate := h.background.update t
      ((s.thread t).share ThreadState.background pendingBackground + (effect.adjust.getD (0, 0)).2)
    rwa [add_sub_cancel_left] at hupdate
  · exact event_adjustCount _ h.event

theorem Inv.exec {s s' : System T} {label : Label T} (h : s.Inv) (hcalm : s.Calm label)
    (hexec : s.exec label = some s') : s'.Inv := by
  cases label with
  | make t call =>
    rw [System.exec] at hexec
    split_ifs at hexec with hbegins
    cases hexec
    exact h.make t hbegins
  | step t call =>
    rw [System.exec] at hexec
    split_ifs at hexec with hmem
    obtain ⟨effect, heffect, hexec⟩ := Option.bind_eq_some_iff.mp hexec
    cases hexec
    exact h.step (Multiset.cons_erase hmem).symm hcalm heffect

end System

/-- In every run that is calm the counts are right whenever no call is changing them. -/
theorem counted_of_calm {T : Type} [DecidableEq T] (main : T) (labels : List (System.Label T))
    {s : System T} (hcalm : Labelled.AllAllowed System.exec System.Calm (System.init main) labels)
    (hrun : Labelled.run System.exec (System.init main) labels = some s) (hquiet : s.Quiet) :
    s.Counted :=
  (Labelled.invariant System.Inv.exec (System.inv_init main) hcalm hrun).counted hquiet

/-- A thread is started. -/
def startLabels : List (System.Label Bool) :=
  [.make true (.startCheck true), .step true (.startCheck true), .step true (.startEnter true),
    .step true (.startLoad true), .step true (.startStore { pub := 0x0008 }),
    .step true (.startAdjust false), .step true .leave]

theorem exists_run_start : ∃ s, Labelled.run System.exec (System.init false) startLabels = some s ∧
    (s.thread false).calls = 0 ∧ (s.thread true).calls = {.runEnter} := by
  have hrun : (Labelled.run System.exec (System.init false) startLabels).map (fun s =>
      ((s.thread false).calls, (s.thread true).calls)) = some (0, {.runEnter}) := by
    decide
  obtain ⟨s, hs, hcalls⟩ := Option.map_eq_some_iff.mp hrun
  exact ⟨s, hs, congrArg Prod.fst hcalls, congrArg Prod.snd hcalls⟩

theorem counted_of_calm_start : ∃ s, Labelled.run System.exec (System.init false) startLabels =
    some s ∧ s.Counted := by
  obtain ⟨s, hrun, hmain, hother⟩ := exists_run_start
  refine ⟨s, hrun, counted_of_calm false startLabels ?_ hrun ?_⟩
  · simp [startLabels, Labelled.AllAllowed, System.Calm, Undisturbed]
  · intro t call hcall
    cases t
    · rw [hmain] at hcall
      exact absurd hcall (Multiset.notMem_zero _)
    · rw [hother] at hcall
      exact Or.inl (Multiset.mem_singleton.mp hcall)

/-- The thread takes its last look and stores that it has stopped while the main thread is about to
mark it as one in the background. -/
def overlapLabels : List (System.Label Bool) :=
  startLabels ++ [.step true .runEnter, .step true .runLeave, .step true .runStart,
    .make true (.setEnter true), .step true (.setEnter true), .step true (.setLoad true),
    .step true .runFunction, .step true (.runStop {}), .step true (.runAdjust false),
    .step true (.setStore true {}), .step true (.setAdjust 1), .step true .leave]

theorem exists_run_overlap : ∃ s,
    Labelled.run System.exec (System.init false) overlapLabels = some s ∧ s.Quiet ∧
      s.numBackgroundThreads = 1 ∧ ∀ t, ¬ ((s.thread t).state.Live ∧
        (s.thread t).state.pub.Has .background) := by
  have hrun : (Labelled.run System.exec (System.init false) overlapLabels).map (fun s =>
      (s.numBackgroundThreads, fun t => (s.thread t).calls, fun t => (s.thread t).state)) =
      some (1, fun _ => 0, fun t => if t then ⟨0x0010, 0x0004⟩ else {}) := by
    decide
  obtain ⟨s, hs, hfinal⟩ := Option.map_eq_some_iff.mp hrun
  have hcalls : ∀ t, (s.thread t).calls = 0 := congrFun (congrArg (fun x => x.2.1) hfinal)
  have hstate : ∀ t, (s.thread t).state = if t then ⟨0x0010, 0x0004⟩ else {} :=
    congrFun (congrArg (fun x => x.2.2) hfinal)
  refine ⟨s, hs, ?_, congrArg Prod.fst hfinal, ?_⟩
  · intro t call hcall
    rw [hcalls t] at hcall
    exact absurd hcall (Multiset.notMem_zero _)
  · intro t
    rw [hstate t]
    revert t
    decide

/-- The background thread that has stopped is counted for ever. -/
theorem not_counted_overlap : ¬ ∀ (T : Type) (_ : DecidableEq T) (main : T)
    (labels : List (System.Label T)) (s : System T),
    Labelled.run System.exec (System.init main) labels = some s → s.Quiet → s.Counted := by
  intro h
  obtain ⟨s, hrun, hquiet, hbackground, hnone⟩ := exists_run_overlap
  have hcount := (h Bool inferInstance false overlapLabels s hrun hquiet).numBackgroundThreads
  have hempty : {t | (s.thread t).state.Live ∧ (s.thread t).state.pub.Has .background} = ∅ := by
    ext t
    simpa using not_and.mp (hnone t)
  rw [hbackground, hempty, Set.ncard_empty] at hcount
  exact absurd hcount (by decide)

end Pnet.Support.Thread
