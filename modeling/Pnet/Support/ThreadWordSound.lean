import Pnet.Support.ThreadWordOutline

/-! Every thread of a calm run can go on from where it is, whatever the others do in between, and so
each word is treated as it should be. -/
namespace Pnet.Support.ThreadWord

open Pnet.Lib
open Thread (Flag Half ThreadState)

variable {T : Type} [DecidableEq T]

/-! ### Every thread at once -/

namespace System

open Function (update)

/-- What a thread holds is what the locks say, and it knows the word as it is. -/
def Holds (s : System T) (t : T) : Option (Held T) → Prop
  | none => ∀ thread, s.holder thread ≠ some t
  | some held => (∀ thread, s.holder thread = some t ↔ thread = held.thread) ∧
      (s.state held.thread).pub = held.pub ∧ s.created held.thread = held.created

def view (s : System T) (t : T) (held : Option (Held T)) : View T :=
  ⟨held, (s.state t).priv, s.waiting t, s.asked t⟩

/-- The thread can go on from where it is. -/
def Going (s : System T) (t : T) : Prop :=
  ∃ held, s.Holds t held ∧ Outline t (s.prog t) (s.view t held)

structure Inv (s : System T) : Prop where
  going : ∀ t, s.Going t
  steady : ∀ t, (s.state t).priv.Has .waitSleepJoin ↔ s.waiting t = true
  free : ∀ thread, s.holder thread = none →
    (Held.mk thread (s.state thread).pub (s.created thread)).Settled
  fresh : ∀ t, s.created t = false →
    s.prog t = .done 0 ∧ s.active t = false ∧ (s.state t).priv = 0

variable {s s' : System T} {t : T}

/-- A thread is where it was when nothing that it knows of has changed. -/
theorem Going.congr (h : s.Going t) (hprog : s'.prog t = s.prog t)
    (hview : ∀ held, s'.view t held = s.view t held)
    (hholder : ∀ thread, s'.holder thread = some t ↔ s.holder thread = some t)
    (hknown : ∀ thread, s.holder thread = some t →
      (s'.state thread).pub = (s.state thread).pub ∧ s'.created thread = s.created thread) :
    s'.Going t := by
  obtain ⟨held, hheld, houtline⟩ := h
  refine ⟨held, ?_, by rwa [hprog, hview]⟩
  cases held with
  | none => exact fun thread => mt (hholder thread).mp (hheld thread)
  | some held =>
    obtain ⟨hthread, hpub, hcreated⟩ := hheld
    obtain ⟨hpub', hcreated'⟩ := hknown held.thread ((hthread held.thread).mpr rfl)
    exact ⟨fun thread => (hholder thread).trans (hthread thread), hpub'.trans hpub,
      hcreated'.trans hcreated⟩

/-- A thread with something left to do has been created. -/
theorem Inv.created (h : s.Inv) (hprog : s.prog t ≠ .done 0) : s.created t = true :=
  Bool.eq_true_of_not_eq_false fun hfresh => hprog (h.fresh t hfresh).1

theorem Inv.created_of_active (h : s.Inv) (hactive : s.active t = true) : s.created t = true := by
  refine Bool.eq_true_of_not_eq_false fun hfresh => ?_
  rw [(h.fresh t hfresh).2.1] at hactive
  exact Bool.false_ne_true hactive

omit [DecidableEq T] in
theorem ne_of_fresh {t' : T} (hcreated : s.created t = true) (hfresh : s.created t' = false) :
    t' ≠ t := by
  rintro rfl
  exact Bool.false_ne_true (hfresh.symm.trans hcreated)

/-- A step after which no word and no lock is different. -/
theorem Inv.goOn (h : s.Inv) (hcreated : s.created t = true) (hstate : s'.state = s.state)
    (hholder : s'.holder = s.holder) (hcreated' : s'.created = s.created)
    (hwaiting : s'.waiting = s.waiting) (hactive : ∀ t, s.active t = false → s'.active t = false)
    (hother : ∀ t' ≠ t, s'.prog t' = s.prog t' ∧ s'.asked t' = s.asked t')
    (hgoing : ∀ held, s.Holds t held → Outline t (s.prog t) (s.view t held) →
      Outline t (s'.prog t) (s'.view t held)) : s'.Inv := by
  constructor
  · intro t'
    by_cases heq : t' = t
    · subst heq
      obtain ⟨held, hheld, houtline⟩ := h.going t'
      refine ⟨held, ?_, hgoing held hheld houtline⟩
      cases held <;> simpa only [Holds, hholder, hstate, hcreated'] using hheld
    · obtain ⟨hprog, hasked⟩ := hother t' heq
      apply (h.going t').congr hprog
      · intro held
        simp only [view, hstate, hwaiting, hasked]
      · simp only [hholder, implies_true]
      · simp only [hstate, hcreated', and_self, implies_true]
  · simpa only [hstate, hwaiting] using h.steady
  · simpa only [hstate, hholder, hcreated'] using h.free
  · intro t' hfresh
    rw [hcreated'] at hfresh
    have hne := ne_of_fresh hcreated hfresh
    obtain ⟨hprog, hidle, hpriv⟩ := h.fresh t' hfresh
    exact ⟨(hother t' hne).1.trans hprog, hactive t' hidle, by rw [hstate, hpriv]⟩

/-- A step that only goes on. -/
theorem Inv.goOn_next (h : s.Inv) (hcreated : s.created t = true) {next : Prog T}
    (hnext : ∀ held, Outline t (s.prog t) (s.view t held) → Outline t next (s.view t held)) :
    (s.goOn t next).Inv := by
  refine h.goOn hcreated rfl rfl rfl rfl (fun _ => id) ?_ ?_
  · exact fun t' hne => ⟨Function.update_of_ne hne _ _, rfl⟩
  · intro held _ houtline
    dsimp only [System.goOn]
    rw [Function.update_self]
    exact hnext held houtline

/-- A step with which the thread may have met a request. -/
theorem Inv.meet_goOn (h : s.Inv) (hcreated : s.created t = true) {found : Bool} {next : Prog T}
    (hnext : ∀ held, s.Holds t held → Outline t (s.prog t) (s.view t held) →
      Outline t next ((s.view t held).met found)) : ((s.meet t found).goOn t next).Inv := by
  refine h.goOn hcreated rfl rfl rfl rfl (fun _ => id) ?_ ?_
  · exact fun t' hne => ⟨Function.update_of_ne hne _ _, Function.update_of_ne hne _ _⟩
  · intro held hheld houtline
    dsimp only [System.goOn, meet, view]
    rw [Function.update_self, Function.update_self]
    exact hnext held hheld houtline

theorem Inv.enter (h : s.Inv) {thread : T} {next : Prog T} (hprog : s.prog t = .enter thread next)
    (hfree : s.holder thread = none) :
    Inv { s.goOn t next with holder := update s.holder thread (some t) } := by
  have hcreated := h.created (t := t) (by rw [hprog]; exact nofun)
  constructor
  · intro t'
    by_cases heq : t' = t
    · subst heq
      obtain ⟨held, hheld, houtline⟩ := h.going t'
      rw [hprog] at houtline
      obtain ⟨rfl : held = none, houtline⟩ := houtline
      refine ⟨some ⟨thread, (s.state thread).pub, s.created thread⟩, ⟨?_, rfl, rfl⟩, ?_⟩
      · intro thread'
        by_cases hthread : thread' = thread
        · simp [hthread]
        · simpa [hthread] using hheld thread'
      · dsimp only [System.goOn]
        rw [Function.update_self]
        exact houtline _ _ (h.free thread hfree)
    · apply (h.going t').congr
      · simp [System.goOn, heq]
      · exact fun _ => rfl
      · intro thread'
        by_cases hthread : thread' = thread
        · subst hthread
          simp [hfree, Ne.symm heq]
        · simp [hthread]
      · exact fun _ _ => ⟨rfl, rfl⟩
  · exact h.steady
  · intro thread' hholder
    apply h.free thread'
    by_cases hthread : thread' = thread
    · rw [hthread, hfree]
    · simpa [hthread] using hholder
  · intro t' hfresh
    have hne := ne_of_fresh hcreated hfresh
    simpa [System.goOn, hne] using h.fresh t' hfresh

theorem Inv.leaveUnsafe (h : s.Inv) {thread : T} {next : Prog T}
    (hprog : s.prog t = .leaveUnsafe thread next) :
    Inv { s.goOn t next with holder := update s.holder thread none } := by
  have hcreated := h.created (t := t) (by rw [hprog]; exact nofun)
  obtain ⟨held, hheld, houtline⟩ := h.going t
  rw [hprog] at houtline
  obtain ⟨⟨held, rfl, rfl, hsettled⟩, houtline⟩ := houtline
  obtain ⟨hholder, hpub, hcreatedHeld⟩ := hheld
  constructor
  · intro t'
    by_cases heq : t' = t
    · subst heq
      refine ⟨none, ?_, ?_⟩
      · intro thread'
        by_cases hthread : thread' = held.thread
        · simp [hthread]
        · simpa [hthread] using mt (hholder thread').mp hthread
      · dsimp only [System.goOn]
        rwa [Function.update_self]
    · apply (h.going t').congr
      · simp [System.goOn, heq]
      · exact fun _ => rfl
      · intro thread'
        by_cases hthread : thread' = held.thread
        · subst hthread
          simp [(hholder held.thread).mpr rfl, Ne.symm heq]
        · simp [hthread]
      · exact fun _ _ => ⟨rfl, rfl⟩
  · exact h.steady
  · intro thread' hfree
    by_cases hthread : thread' = held.thread
    · subst hthread
      dsimp only [System.goOn]
      rw [hpub, hcreatedHeld]
      exact hsettled
    · apply h.free thread'
      simpa [hthread] using hfree
  · intro t' hfresh
    have hne := ne_of_fresh hcreated hfresh
    simpa [System.goOn, hne] using h.fresh t' hfresh

theorem Inv.create (h : s.Inv) {thread : T} {next : Prog T}
    (hprog : s.prog t = .create thread next) :
    Inv { (s.goOn t next).goOn thread (ilThreadRun thread) with
      created := update s.created thread true, active := update s.active thread true } := by
  have hcreated := h.created (t := t) (by rw [hprog]; exact nofun)
  obtain ⟨held, hheld, houtline⟩ := h.going t
  rw [hprog] at houtline
  obtain ⟨pub, rfl, houtline⟩ := houtline
  obtain ⟨hholder, hpub, hfresh⟩ := hheld
  obtain ⟨hdone, -, hpriv⟩ := h.fresh thread hfresh
  have hne := ne_of_fresh hcreated hfresh
  constructor
  · intro t'
    by_cases heq : t' = t
    · subst heq
      refine ⟨some ⟨thread, pub, true⟩, ⟨hholder, hpub, Function.update_self _ _ _⟩, ?_⟩
      dsimp only [System.goOn]
      rwa [Function.update_of_ne (Ne.symm hne), Function.update_self]
    by_cases hthread : t' = thread
    · subst hthread
      obtain ⟨held, hheld, houtline⟩ := h.going t'
      rw [hdone] at houtline
      obtain ⟨rfl : held = none, hwaiting⟩ := houtline
      refine ⟨none, hheld, ?_⟩
      have hview : s.view t' none = ⟨none, 0, false, s.asked t'⟩ := by
        rw [view, hpriv, show s.waiting t' = false from hwaiting]
      dsimp only [System.goOn]
      rw [Function.update_self]
      exact hview ▸ outline_ilThreadRun
    · apply (h.going t').congr
      · simp [System.goOn, heq, hthread]
      · exact fun _ => rfl
      · exact fun _ => Iff.rfl
      · intro thread' hholder'
        have hother : thread' ≠ thread := by
          rintro rfl
          have hself := (hholder thread').mpr rfl
          rw [hholder'] at hself
          exact heq (Option.some.inj hself)
        exact ⟨rfl, Function.update_of_ne hother _ _⟩
  · exact h.steady
  · intro thread' (hfree : s.holder thread' = none)
    have hother : thread' ≠ thread := by
      rintro rfl
      rw [(hholder thread').mpr rfl] at hfree
      exact nomatch hfree
    simpa [System.goOn, hother] using h.free thread' hfree
  · intro t' hfresh'
    have hother : t' ≠ thread := by
      rintro rfl
      simp at hfresh'
    have hfresh' : s.created t' = false := by simpa [hother] using hfresh'
    simpa [System.goOn, hother, ne_of_fresh hcreated hfresh'] using h.fresh t' hfresh'

section Store

variable {thread : T} {width : Width} {threadState : ThreadState} {edits : Edits} {mark : Mark}
  {next : Prog T} {held : Option (Held T)}

/-- The words after a store. -/
def written (s : System T) (thread : T) (width : Width) (value : ThreadState) : T → ThreadState :=
  update s.state thread (stored (s.state thread) width value)

theorem written_pub (value : ThreadState) (thread' : T) :
    (s.written thread width value thread').pub =
      if width.storesPub = true ∧ thread' = thread then value.pub else (s.state thread').pub := by
  by_cases hthread : thread' = thread
  · subst hthread
    simp [written, stored]
  · simp [written, hthread]

theorem written_priv (value : ThreadState) (thread' : T) :
    (s.written thread width value thread').priv =
      if width.storesPriv = true ∧ thread' = thread then value.priv
      else (s.state thread').priv := by
  by_cases hthread : thread' = thread
  · subst hthread
    simp [written, stored]
  · simp [written, hthread]

/-- The storing thread still knows the word that it holds. -/
theorem holds_store (hheld : s.Holds t held) (value : ThreadState)
    (hpub : width.storesPub = true → ∃ held', held = some held' ∧ held'.thread = thread)
    (hstate : s'.state = s.written thread width value) (hholder : s'.holder = s.holder)
    (hcreated : s'.created = s.created) :
    s'.Holds t (if width.storesPub then held.map ({ · with pub := value.pub }) else held) := by
  cases held with
  | none =>
    have hnone : s'.Holds t none := by simpa only [Holds, hholder] using hheld
    simpa using hnone
  | some held =>
    obtain ⟨hthread, hpub', hcreated'⟩ := hheld
    by_cases hwidth : width.storesPub = true
    · obtain ⟨held', heq, rfl⟩ := hpub hwidth
      cases heq
      rw [if_pos hwidth]
      refine ⟨by simpa only [hholder] using hthread, ?_, by simpa only [hcreated] using hcreated'⟩
      simp [hstate, written_pub, hwidth]
    · rw [if_neg hwidth]
      refine ⟨by simpa only [hholder] using hthread, ?_, by simpa only [hcreated] using hcreated'⟩
      simpa [hstate, written_pub, hwidth] using hpub'

theorem Inv.store (h : s.Inv) (hprog : s.prog t = .store thread width threadState edits mark next) :
    Inv { s.goOn t next with
      state := s.written thread width (edits.apply threadState),
      waiting := update s.waiting t (mark.after (s.waiting t)) } := by
  have hcreated := h.created (t := t) (by rw [hprog]; exact nofun)
  obtain ⟨held, hheld, houtline⟩ := h.going t
  rw [hprog] at houtline
  obtain ⟨hpriv, hpub, -, houtline⟩ := houtline
  have hthread : width.storesPriv = true → thread = t := by
    intro hwidth
    rw [if_pos hwidth] at hpriv
    exact hpriv.1
  have hlocked : width.storesPub = true → s.holder thread = some t := by
    intro hwidth
    obtain ⟨_, rfl, rfl, -⟩ := hpub hwidth
    exact (hheld.1 _).mpr rfl
  have hpriv' : (s.written thread width (edits.apply threadState) t).priv =
      if width.storesPriv = true then (edits.apply threadState).priv else (s.state t).priv := by
    rw [written_priv]
    by_cases hwidth : width.storesPriv = true
    · simp [hwidth, hthread hwidth]
    · simp [hwidth]
  constructor
  · intro t'
    by_cases heq : t' = t
    · subst heq
      refine ⟨_, holds_store hheld (edits.apply threadState)
        (fun hwidth => (hpub hwidth).imp fun _ hthread => ⟨hthread.1, hthread.2.1⟩) rfl rfl rfl, ?_⟩
      dsimp only [System.goOn, view]
      rw [Function.update_self, Function.update_self, hpriv']
      exact houtline
    · apply (h.going t').congr
      · simp [System.goOn, heq]
      · intro held
        have hstores : ¬ (width.storesPriv = true ∧ t' = thread) :=
          fun hwidth => heq (hwidth.2.trans (hthread hwidth.1))
        simp [view, System.goOn, written_priv, hstores, heq]
      · exact fun _ => Iff.rfl
      · intro thread' hholder
        have hstores : ¬ (width.storesPub = true ∧ thread' = thread) := by
          rintro ⟨hwidth, rfl⟩
          rw [hlocked hwidth] at hholder
          exact heq (Option.some.inj hholder).symm
        exact ⟨by simp [written_pub, hstores], rfl⟩
  · intro t'
    by_cases heq : t' = t
    · subst heq
      dsimp only
      rw [Function.update_self, hpriv']
      by_cases hwidth : width.storesPriv = true
      · rw [if_pos hwidth] at hpriv ⊢
        have hsteady := hpriv.2.2
        simpa [View.Steady, View.stored, hwidth, view] using hsteady
      · rw [if_neg hwidth] at hpriv ⊢
        rw [hpriv]
        exact h.steady t'
    · have hstores : ¬ (width.storesPriv = true ∧ t' = thread) :=
        fun hwidth => heq (hwidth.2.trans (hthread hwidth.1))
      simpa [written_priv, hstores, heq] using h.steady t'
  · intro thread' (hfree : s.holder thread' = none)
    have hstores : ¬ (width.storesPub = true ∧ thread' = thread) := by
      rintro ⟨hwidth, rfl⟩
      rw [hlocked hwidth] at hfree
      exact nomatch hfree
    simpa [System.goOn, written_pub, hstores] using h.free thread' hfree
  · intro t' hfresh
    have hne := ne_of_fresh hcreated hfresh
    have hstores : ¬ (width.storesPriv = true ∧ t' = thread) :=
      fun hwidth => hne (hwidth.2.trans (hthread hwidth.1))
    simpa [System.goOn, written_priv, hstores, hne] using h.fresh t' hfresh

end Store

omit [DecidableEq T] in
theorem Holds.agrees {held : Option (Held T)} (h : s.Holds t held) (thread : T) :
    (s.view t held).Agrees t thread (s.state thread) := by
  constructor
  · intro held' heq hthread
    cases (show held = some held' from heq)
    rw [← hthread, h.2.1]
  · rintro rfl
    rfl

theorem Inv.step (h : s.Inv) {answer : Int} (hcalm : s.Calm (.step t answer))
    (hstep : s.step t answer = some s') : s'.Inv := by
  by_cases hdone : s.prog t = .done 0
  · simp only [System.step, hdone] at hstep
    cases hstep
  have hcreated := h.created hdone
  cases hprog : s.prog t with
  | done result =>
    simp only [System.step, hprog] at hstep
    cases hstep
  | enter thread next =>
    simp only [System.step, hprog] at hstep
    split_ifs at hstep with hfree
    cases hstep
    exact h.enter hprog hfree
  | leaveUnsafe thread next =>
    simp only [System.step, hprog] at hstep
    cases hstep
    exact h.leaveUnsafe hprog
  | store thread width threadState edits mark next =>
    simp only [System.step, hprog] at hstep
    cases hstep
    exact h.store hprog
  | create thread next =>
    simp only [System.step, hprog] at hstep
    cases hstep
    exact h.create hprog
  | check next =>
    simp only [System.step, hprog] at hstep
    split_ifs at hstep
    · cases hstep
      apply h.meet_goOn hcreated
      intro held _ houtline
      rw [hprog] at houtline
      obtain ⟨rfl : held = none, hnext⟩ := houtline
      simpa [View.met, view] using outline_suspendRequest hnext
    · cases hstep
      apply h.goOn_next hcreated
      intro held houtline
      rw [hprog] at houtline
      exact houtline.2 (s.asked t)
  | load thread point next =>
    simp only [System.step, hprog] at hstep
    cases hstep
    apply h.meet_goOn hcreated
    intro held hheld houtline
    rw [hprog] at houtline
    exact houtline _ (hheld.agrees thread) (hcalm (thread, point) (by rw [hprog]; rfl))
  | setSuspendRequested thread suspendRequested next =>
    simp only [System.step, hprog] at hstep
    cases hstep
    have hgoOn : (s.goOn t next).Inv := by
      apply h.goOn_next hcreated
      intro held houtline
      rwa [hprog] at houtline
    exact ⟨hgoOn.going, hgoOn.steady, hgoOn.free, hgoOn.fresh⟩
  | pick next =>
    simp only [System.step, hprog] at hstep
    cases hstep
    apply h.goOn_next hcreated
    intro held houtline
    rw [hprog] at houtline
    exact houtline answer
  | wait next =>
    simp only [System.step, hprog] at hstep
    cases hstep
    apply h.goOn_next hcreated
    intro held houtline
    rw [hprog] at houtline
    exact houtline.2.2 answer
  | await next =>
    simp only [System.step, hprog] at hstep
    cases hstep
    apply h.goOn_next hcreated
    intro held houtline
    rwa [hprog] at houtline
  | suspendSelf next =>
    simp only [System.step, hprog] at hstep
    cases hstep
    refine h.goOn hcreated rfl rfl rfl rfl (fun _ => id) ?_ ?_
    · exact fun t' hne => ⟨Function.update_of_ne hne _ _, Function.update_of_ne hne _ _⟩
    · intro held _ houtline
      rw [hprog] at houtline
      dsimp only [System.goOn, view]
      rw [Function.update_self, Function.update_self]
      exact houtline

/-- A thread that has returned holds no lock and is in no wait. -/
theorem Inv.returned (h : s.Inv) (hreturned : (s.prog t).returned = true) {held : Option (Held T)}
    (houtline : Outline t (s.prog t) (s.view t held)) :
    held = none ∧ s.waiting t = false ∧ ¬ (s.state t).priv.Has .waitSleepJoin := by
  cases hprog : s.prog t with
  | done result =>
    rw [hprog] at houtline
    obtain ⟨hheld, hwaiting⟩ := houtline
    refine ⟨hheld, hwaiting, mt (h.steady t).mp ?_⟩
    rw [show s.waiting t = false from hwaiting]
    exact Bool.false_ne_true
  | _ =>
    rw [hprog] at hreturned
    cases hreturned

theorem Inv.exec {label : Label T} (h : s.Inv) (hcalm : s.Calm label)
    (hexec : s.exec label = some s') : s'.Inv := by
  cases label with
  | make t call =>
    rw [System.exec] at hexec
    split_ifs at hexec with hcall
    cases hexec
    apply h.meet_goOn (h.created_of_active hcall.1)
    intro held _ houtline
    obtain ⟨rfl, hwaiting, hsteady⟩ := h.returned hcall.2 houtline
    rw [view, View.met, hwaiting]
    apply outline_call call hsteady
    intro hasks
    simp [hasks]
  | step t answer => exact h.step hcalm hexec
  | finish t =>
    rw [System.exec] at hexec
    split_ifs at hexec with hfinish
    cases hexec
    refine h.goOn (h.created_of_active hfinish.2.1) rfl rfl rfl rfl ?_ ?_ ?_
    · intro t' hidle
      by_cases heq : t' = t
      · simp [heq]
      · simpa [heq] using hidle
    · exact fun t' hne => ⟨Function.update_of_ne hne _ _, rfl⟩
    · intro held _ houtline
      obtain ⟨rfl, hwaiting, hsteady⟩ := h.returned hfinish.2.2 houtline
      dsimp only [System.goOn, view]
      rw [Function.update_self, hwaiting]
      exact outline_ilThreadRunEnd hsteady

theorem inv_init (main : T) : (init main).Inv := by
  constructor
  · exact fun t => ⟨none, nofun, rfl, rfl⟩
  · intro t
    have hpriv : ((init main).state t).priv = 0 := by
      dsimp only [init]
      split_ifs <;> rfl
    rw [hpriv]
    exact iff_of_false Half.not_has_zero Bool.false_ne_true
  · intro thread _
    dsimp only [Held.Settled, init]
    by_cases heq : thread = main
    · simp [heq]
    · simp [heq]
  · intro t hfresh
    have hne : t ≠ main := of_decide_eq_false hfresh
    exact ⟨rfl, hfresh, by simp [init, hne]⟩

theorem Inv.orderly (h : s.Inv) : s.Orderly := by
  constructor
  · intro t thread width threadState edits mark next hprog
    obtain ⟨held, hheld, houtline⟩ := h.going t
    rw [hprog] at houtline
    obtain ⟨hpriv, hpub, -, -⟩ := houtline
    rw [stored, stored, ThreadState.mk.injEq]
    constructor
    · by_cases hwidth : width.storesPriv = true
      · rw [if_pos hwidth] at hpriv
        obtain ⟨rfl, hloaded, -⟩ := hpriv
        simp only [Edits.apply, show threadState.priv = (s.state thread).priv from hloaded]
      · rw [if_neg hwidth, if_neg hwidth]
    · by_cases hwidth : width.storesPub = true
      · obtain ⟨held', heq, rfl, hloaded⟩ := hpub hwidth
        cases (show held = some held' from heq)
        simp only [Edits.apply, ← hloaded, hheld.2.1]
      · rw [if_neg hwidth, if_neg hwidth]
  · exact h.steady
  · intro t result hprog
    obtain ⟨held, -, houtline⟩ := h.going t
    rw [hprog] at houtline
    exact houtline.2
  · intro t next hprog
    obtain ⟨held, -, houtline⟩ := h.going t
    rw [hprog] at houtline
    exact houtline.2.1
  · intro t thread width threadState edits mark next hprog
    obtain ⟨held, -, houtline⟩ := h.going t
    rw [hprog] at houtline
    exact houtline.2.2.1

end System

/-- In every run that is calm each thread's word is treated as it should be. -/
theorem orderly_of_calm {T : Type} [DecidableEq T] (main : T) (labels : List (System.Label T))
    {s : System T} (hcalm : Labelled.AllAllowed System.exec System.Calm (System.init main) labels)
    (hrun : Labelled.run System.exec (System.init main) labels = some s) : s.Orderly :=
  (Labelled.invariant System.Inv.exec (System.inv_init main) hcalm hrun).orderly

/-- A thread sleeps. -/
def sleepLabels : List (System.Label Unit) :=
  .make () (.sleep 0) :: List.replicate 7 (.step () 0)

theorem orderly_of_calm_sleep : ∃ s,
    Labelled.run System.exec (System.init ()) sleepLabels = some s ∧ s.Orderly := by
  obtain ⟨s, hrun⟩ := Option.isSome_iff_exists.mp (show
    (Labelled.run System.exec (System.init ()) sleepLabels).isSome = true by decide)
  exact ⟨s, hrun, orderly_of_calm () sleepLabels (by decide) hrun⟩

/-- A thread aborts itself and then sleeps. -/
def abortLabels : List (System.Label Unit) :=
  .make () (.abort ()) :: List.replicate 6 (.step () 0) ++
    .make () (.sleep 0) :: List.replicate 8 (.step () 0)

theorem exists_run_abort : ∃ s,
    Labelled.run System.exec (System.init ()) abortLabels = some s ∧
      (s.prog ()).returned = true ∧ s.waiting () = false ∧
        (s.state ()).priv.Has .waitSleepJoin := by
  have hrun : (Labelled.run System.exec (System.init ()) abortLabels).map (fun s =>
      ((s.prog ()).returned, s.waiting (), s.state ())) = some (true, false, ⟨0x0020, 0x0080⟩) := by
    decide
  obtain ⟨s, hs, hfinal⟩ := Option.map_eq_some_iff.mp hrun
  refine ⟨s, hs, congrArg Prod.fst hfinal, congrArg (fun x => x.2.1) hfinal, ?_⟩
  rw [show s.state () = ⟨0x0020, 0x0080⟩ from congrArg (fun x => x.2.2) hfinal]
  decide

/-- The thread that is told of its abort by the sleep is left marked as waiting. -/
theorem not_orderly_abort : ¬ ∀ (T : Type) (_ : DecidableEq T) (main : T)
    (labels : List (System.Label T)) (s : System T),
    Labelled.run System.exec (System.init main) labels = some s → s.Orderly := by
  intro h
  obtain ⟨s, hrun, -, hwaiting, hflag⟩ := exists_run_abort
  have hmarked := ((h Unit inferInstance () abortLabels s hrun).flag ()).mp hflag
  rw [hwaiting] at hmarked
  exact Bool.false_ne_true hmarked

end Pnet.Support.ThreadWord
