import Pnet.Support.InterlockedSListSound

/-! What the calls on a lock-free list return, over any interleaving of their steps. -/
namespace Pnet.Support.InterlockedSList

variable {T E : Type}

namespace ThreadState

/-- The element that a thread has still to exchange the tail for. -/
def unexchanged : ThreadState E → List E
  | storeNext elem | exchangeTail elem => [elem]
  | _ => []

def exchanging : ThreadState E → List E
  | exchangeTail elem => [elem]
  | _ => []

end ThreadState

variable [DecidableEq T] {s : SList T E} {front : Ptr E} {queue : List E} {t : T}

theorem mem_calledBy {e : E} : e ∈ s.calledBy t ↔ (t, e) ∈ s.called := by
  simp [SList.calledBy]

omit [DecidableEq T] in
theorem Inv.caller_unique (h : Inv s front queue) {t' : T} {e : E} (ht : (t, e) ∈ s.called)
    (ht' : (t', e) ∈ s.called) : t = t' :=
  congrArg Prod.fst (List.inj_on_of_nodup_map h.calledOnce ht ht' rfl)

/-! ### What a step does to the logs -/

section Logs

variable [DecidableEq E]

theorem called_exec (s : SList T E) (t : T) : (exec s t).called = s.called := by
  unfold exec
  cases s.thread t <;> dsimp only <;> (try split_ifs) <;> rfl

theorem thread_exec_of_ne {t' : T} (h : t' ≠ t) : (exec s t).thread t' = s.thread t' := by
  unfold exec
  cases s.thread t <;> dsimp only <;> (try split_ifs) <;>
    simp [SList.ret, SList.setThread, SList.setNext, h]

theorem exchanged_exec (s : SList T E) (t : T) :
    (exec s t).exchanged = s.exchanged ++ (s.thread t).exchanging := by
  unfold exec
  cases s.thread t <;> dsimp only <;> (try split_ifs) <;>
    simp [SList.ret, SList.setThread, SList.setNext, ThreadState.exchanging]

theorem unexchanged_exec (s : SList T E) (t : T) :
    (s.thread t).exchanging ++ ((exec s t).thread t).unexchanged = (s.thread t).unexchanged := by
  unfold exec
  cases ht : s.thread t <;> dsimp only <;> (try split_ifs) <;>
    simp [SList.ret, SList.setThread, SList.setNext, ThreadState.exchanging,
      ThreadState.unexchanged, ht]

omit [DecidableEq E] in
theorem resultsOf_ret (s : SList T E) (t : T) (result : Option (Ptr E)) (t' : T) :
    (s.ret t result).resultsOf t' =
      s.resultsOf t' ++ if t' = t then result.toList else [] := by
  by_cases heq : t' = t
  · cases result <;> simp [SList.ret, SList.resultsOf, SList.setThread, heq]
  · simp [SList.ret, SList.resultsOf, SList.setThread, heq, Ne.symm heq]

omit [DecidableEq E] in
theorem results_ret (s : SList T E) (t : T) (result : Option (Ptr E)) :
    (s.ret t result).results = s.results ++ result.toList := by
  cases result <;> simp [SList.ret, SList.results, SList.setThread]

/-- A step removes `took` and returns `gave`, and keeps the difference in hand. -/
structure LogStep (s : SList T E) (t : T) (took gave : List (Ptr E)) : Prop where
  taken : (exec s t).taken = s.taken ++ took
  results : (exec s t).results = s.results ++ gave
  resultsOf : ∀ t', (exec s t).resultsOf t' = s.resultsOf t' ++ if t' = t then gave else []
  balance : (s.thread t).closing.toList ++ took =
    gave ++ ((exec s t).thread t).closing.toList
  removes : took ≠ [] → ∃ a b, s.thread t = .casHead a b ∧ s.next .head = a

/-- The thread goes on, and neither log changes. -/
theorem LogStep.move {next : Ptr E → Ptr E} {state : ThreadState E} {exchanged : List E}
    (hexec : exec s t = { s.setThread t state with next := next, exchanged := exchanged })
    (hclosing : state.closing = (s.thread t).closing) : LogStep s t [] [] := by
  constructor
  · simp [hexec, SList.setThread]
  · simp [hexec, SList.results, SList.setThread]
  · simp [hexec, SList.resultsOf, SList.setThread]
  · simp [hexec, SList.setThread, hclosing]
  · simp

/-- The thread returns what it has in hand. -/
theorem LogStep.ret {next : Ptr E → Ptr E} {result : Option (Ptr E)}
    (hexec : exec s t = ({ s with next := next } : SList T E).ret t result)
    (hclosing : (s.thread t).closing = result) : LogStep s t [] result.toList := by
  constructor
  · simp [hexec, SList.ret, SList.setThread]
  · rw [hexec, results_ret]
    rfl
  · intro t'
    rw [hexec, resultsOf_ret]
    rfl
  · rw [hclosing, hexec]
    simp [SList.ret, SList.setThread, ThreadState.closing]
  · simp

theorem exec_logs (s : SList T E) (t : T) : ∃ took gave, LogStep s t took gave := by
  cases ht : s.thread t with
  | idle =>
    have hsame : s.setThread t .idle = s := by simp [SList.setThread, ← ht]
    exact ⟨[], [], .move (by rw [hsame, exec, ht]) (by rw [ht])⟩
  | storeNext e => exact ⟨[], [], .move (by rw [exec, ht]; rfl) (by rw [ht]; rfl)⟩
  | exchangeTail e => exact ⟨[], [], .move (by rw [exec, ht]; rfl) (by rw [ht]; rfl)⟩
  | linkPrev e a => exact ⟨[], [], .move (by rw [exec, ht]; rfl) (by rw [ht]; rfl)⟩
  | loadHead =>
    by_cases hhead : s.next .head = .tail
    · have hexec : exec s t = s.ret t none := by simp [exec, ht, hhead]
      exact ⟨[], [], .ret hexec (by rw [ht]; rfl)⟩
    · have hexec : exec s t = s.setThread t (.loadNext (s.next .head)) := by
        simp [exec, ht, hhead]
      exact ⟨[], [], .move hexec (by rw [ht]; rfl)⟩
  | loadNext a => exact ⟨[], [], .move (by rw [exec, ht]) (by rw [ht]; rfl)⟩
  | casHead a b =>
    by_cases hhead : s.next .head = a
    · by_cases hb : b = .tail
      · have hexec : exec s t = { (s.setNext .head b).setThread t (.casTail a) with
            taken := s.taken ++ [a] } := by
          simp [exec, ht, hhead, hb, SList.setThread, SList.setNext]
        refine ⟨[a], [], ?_⟩
        constructor
        · simp [hexec]
        · simp [hexec, SList.results, SList.setThread, SList.setNext]
        · simp [hexec, SList.resultsOf, SList.setThread, SList.setNext]
        · simp [hexec, SList.setThread, ht, ThreadState.closing]
        · exact fun _ => ⟨a, b, ht, hhead⟩
      · have hexec : exec s t = ({ s.setNext .head b with taken := s.taken ++ [a] } :
            SList T E).ret t (some a) := by
          simp [exec, ht, hhead, hb]
        refine ⟨[a], [a], ?_⟩
        constructor
        · simp [hexec, SList.ret, SList.setThread]
        · rw [hexec, results_ret]
          rfl
        · intro t'
          rw [hexec, resultsOf_ret]
          rfl
        · simp [hexec, SList.ret, SList.setThread, ht, ThreadState.closing]
        · exact fun _ => ⟨a, b, ht, hhead⟩
    · have hexec : exec s t = s.setThread t .loadHead := by simp [exec, ht, hhead]
      exact ⟨[], [], .move hexec (by rw [ht]; rfl)⟩
  | casTail a =>
    by_cases htail : s.next .tail = a
    · have hexec : exec s t = (s.setNext .tail .head).ret t (some a) := by
        simp [exec, ht, htail]
      exact ⟨[], [a], .ret hexec (by rw [ht]; rfl)⟩
    · have hexec : exec s t = s.setThread t (.waitNext a) := by simp [exec, ht, htail]
      exact ⟨[], [], .move hexec (by rw [ht]; rfl)⟩
  | waitNext a =>
    by_cases hnext : s.next a = .tail
    · have hsame : s.setThread t (.waitNext a) = s := by simp [SList.setThread, ← ht]
      have hexec : exec s t = s.setThread t (.waitNext a) := by
        rw [hsame]
        simp [exec, ht, hnext]
      exact ⟨[], [], .move hexec (by rw [ht])⟩
    · have hexec : exec s t = s.setThread t (.storeHead a (s.next a)) := by
        simp [exec, ht, hnext]
      exact ⟨[], [], .move hexec (by rw [ht]; rfl)⟩
  | storeHead a b =>
    have hexec : exec s t = (s.setNext .head b).ret t (some a) := by rw [exec, ht]
    exact ⟨[], [a], .ret hexec (by rw [ht]; rfl)⟩

end Logs

theorem unexchanged_setThread {state : ThreadState E}
    (h : state.unexchanged = (s.thread t).unexchanged) (t' : T) :
    ((s.setThread t state).thread t').unexchanged = (s.thread t').unexchanged := by
  by_cases heq : t' = t
  · rw [heq, thread_setThread_self, h]
  · rw [thread_setThread_of_ne heq]

/-! ### The invariants of the logs -/

section Invariants

/-- Each thread exchanges the tail for its elements in the order of its calls. -/
def InOrder [DecidableEq E] (s : SList T E) : Prop :=
  ∀ t, s.exchanged.filter (· ∈ s.calledBy t) ++ (s.thread t).unexchanged = s.calledBy t

/-- What a closing thread has in hand, at the front. -/
def held [DecidableEq E] (front : Ptr E) : List (Ptr E) := if front = .head then [] else [front]

/-- What was removed has been returned, but for the element in hand. -/
structure Delivered [DecidableEq E] (s : SList T E) (front : Ptr E) : Prop where
  shared : s.taken.Perm (s.results ++ held front)
  inOrder : ∀ t, (s.resultsOf t ++ (s.thread t).closing.toList).Sublist s.taken

variable [DecidableEq E]

theorem InOrder.exec (h : Inv s front queue) (horder : InOrder s) (t : T) :
    InOrder (InterlockedSList.exec s t) := by
  intro t'
  have ht' := horder t'
  have hcalledBy : (InterlockedSList.exec s t).calledBy t' = s.calledBy t' := by
    simp only [SList.calledBy, called_exec]
  rw [hcalledBy, exchanged_exec, List.filter_append]
  by_cases heq : t' = t
  · subst heq
    have hown : (s.thread t').exchanging.filter (· ∈ s.calledBy t') = (s.thread t').exchanging := by
      cases hstate : s.thread t' <;> simp [ThreadState.exchanging, mem_calledBy]
      exact h.busy t' _ (by rw [hstate]; rfl)
    rw [hown, List.append_assoc, unexchanged_exec, ht']
  · have hother : (s.thread t).exchanging.filter (· ∈ s.calledBy t') = [] := by
      cases hstate : s.thread t <;> simp [ThreadState.exchanging, mem_calledBy]
      have hbusy := h.busy t _ (by rw [hstate]; rfl)
      exact fun hmem => heq (h.caller_unique hmem hbusy)
    rw [hother, List.append_nil, thread_exec_of_ne heq, ht']

theorem Inv.held_front (h : Inv s front queue)
    (hothers : ∀ t', t' ≠ t → (s.thread t').closing = none) :
    held front = (s.thread t).closing.toList := by
  rcases h.isFront with ⟨rfl, hnone⟩ | ⟨hfront, _, t₀, ht₀, _⟩
  · simp [held, hnone t]
  · have hsame : t₀ = t := by
      by_contra hne
      rw [hothers t₀ hne] at ht₀
      cases ht₀
    have hne : front ≠ .head := by
      rintro rfl
      simpa using h.mem_taken hfront
    rw [← hsame, ht₀]
    simp [held, hne]

theorem Delivered.exec {front' : Ptr E} {queue' : List E} (h : Inv s front queue)
    (h' : Inv (InterlockedSList.exec s t) front' queue') (hdelivered : Delivered s front) :
    Delivered (InterlockedSList.exec s t) front' := by
  obtain ⟨took, gave, hstep⟩ := exec_logs s t
  constructor
  · rw [hstep.taken, hstep.results]
    by_cases hothers : ∀ t', t' ≠ t → (s.thread t').closing = none
    · have hothers' : ∀ t', t' ≠ t → ((InterlockedSList.exec s t).thread t').closing = none := by
        intro t' ht'
        rw [thread_exec_of_ne ht', hothers t' ht']
      have hbalance := hstep.balance
      rw [← h.held_front hothers, ← h'.held_front hothers'] at hbalance
      rw [List.append_assoc, ← hbalance, ← List.append_assoc]
      exact hdelivered.shared.append_right took
    · -- while another thread is closing, the head is not removed
      push Not at hothers
      obtain ⟨t₀, hne, hclosing⟩ := hothers
      obtain ⟨a, ha⟩ := Option.ne_none_iff_exists'.1 hclosing
      have hnone := (h.closing_front ha).2.2 t hne.symm
      have htook : took = [] := by
        by_contra htook
        obtain ⟨b, c, hcas, hhead⟩ := hstep.removes htook
        exact hclosing ((h.casHead_first hcas hhead).2.1 t₀)
      have hgave : gave = [] := by
        have hbalance := hstep.balance
        rw [hnone, htook] at hbalance
        exact (List.append_eq_nil_iff.1 hbalance.symm).1
      have hsame : front' = front := by
        have hfront := h'.closing_eq (by rw [thread_exec_of_ne hne, ha])
        exact hfront.symm.trans (h.closing_eq ha)
      rw [htook, hgave, hsame, List.append_nil, List.append_nil]
      exact hdelivered.shared
  · intro t'
    have hsub := hdelivered.inOrder t'
    rw [hstep.taken, hstep.resultsOf]
    by_cases heq : t' = t
    · subst heq
      rw [if_pos rfl, List.append_assoc, ← hstep.balance, ← List.append_assoc]
      exact hsub.append (List.Sublist.refl took)
    · rw [if_neg heq, List.append_nil, thread_exec_of_ne heq]
      exact hsub.trans (List.sublist_append_left ..)

end Invariants

/-! ### Runs -/

section Runs

variable [DecidableEq E]

/-- What a list promises to those who call it. -/
structure Sound (s : SList T E) : Prop where
  once : s.results.Nodup
  appended : ∀ a ∈ s.results, ∃ call ∈ s.called, a = .elem call.2
  producerOrder : ∀ t, s.taken.filter (· ∈ (s.calledBy t).map .elem) <+: (s.calledBy t).map .elem
  consumerOrder : ∀ t, (s.resultsOf t).Sublist s.taken
  drained : s.Drained → ∀ call ∈ s.called, s.results.count (.elem call.2) = 1

omit [DecidableEq T] in
theorem Inv.drained (h : Inv s front queue) (hdrained : s.Drained) : front = .head ∧ queue = [] := by
  obtain ⟨hidle, hempty⟩ := hdrained
  have hhead : s.next .head = .tail := by simpa [ilInterlockedSListIsEmpty] using hempty
  rcases h.isFront with ⟨rfl, _⟩ | ⟨_, _, t, ht, _⟩
  · refine ⟨rfl, ?_⟩
    have hlinks := h.links
    cases queue with
    | nil => rfl
    | cons x rest =>
      rcases hlinks.1 with hx | ⟨_, t, ht⟩
      · simp [hhead] at hx
      · simp [hidle t] at ht
  · simp [hidle t, ThreadState.closing] at ht

theorem Inv.sound (h : Inv s front queue) (horder : InOrder s) (hdelivered : Delivered s front) :
    Sound s := by
  have htaken : s.taken.Nodup := h.nodup_ptrs.of_append_left
  have hprefix : s.taken <+: s.exchanged.map .elem := by
    rw [h.split]
    exact List.prefix_append ..
  constructor
  · exact (hdelivered.shared.nodup_iff.1 htaken).of_append_left
  · intro a ha
    have hmem := hdelivered.shared.mem_iff.2 (List.mem_append_left _ ha)
    obtain ⟨e, he, rfl⟩ := List.mem_map.1 (h.mem_taken hmem)
    obtain ⟨call, hcall, rfl⟩ := List.mem_map.1 (h.isCalled e he)
    exact ⟨call, hcall, rfl⟩
  · intro t
    have hfilter : (s.exchanged.map Ptr.elem).filter (· ∈ (s.calledBy t).map .elem) =
        (s.exchanged.filter (· ∈ s.calledBy t)).map .elem := by
      rw [List.filter_map]
      congr 1
      apply List.filter_congr
      simp
    have hcalled : (s.exchanged.filter (· ∈ s.calledBy t)).map Ptr.elem <+:
        (s.calledBy t).map .elem := by
      apply List.IsPrefix.map
      exact ⟨_, horder t⟩
    exact (List.IsPrefix.filter _ hprefix).trans (hfilter ▸ hcalled)
  · exact fun t => (List.sublist_append_left ..).trans (hdelivered.inOrder t)
  · intro hdrained call hcall
    obtain ⟨rfl, rfl⟩ := h.drained hdrained
    have hmem : call.2 ∈ s.exchanged := by
      have hown := horder call.1
      rw [hdrained.1 call.1] at hown
      have hcalled : call.2 ∈ s.calledBy call.1 := mem_calledBy.2 hcall
      have hnone : (ThreadState.idle : ThreadState E).unexchanged = [] := rfl
      rw [← hown, hnone, List.append_nil] at hcalled
      exact List.mem_of_mem_filter hcalled
    have hshared := hdelivered.shared
    rw [held, if_pos rfl, List.append_nil] at hshared
    have hsplit := h.split
    rw [List.map_nil, List.append_nil] at hsplit
    rw [← hshared.count_eq]
    apply List.count_eq_one_of_mem htaken
    rw [← hsplit]
    exact List.mem_map_of_mem hmem

theorem inv_init (memory : Ptr E → Ptr E) :
    Inv (T := T) (ilInterlockedSListHeadInit memory) .head [] ∧
      InOrder (T := T) (ilInterlockedSListHeadInit memory) ∧
      Delivered (T := T) (ilInterlockedSListHeadInit memory) .head := by
  refine ⟨?_, ?_, ?_⟩
  · constructor
    · rfl
    · exact List.nodup_nil
    · simp [ilInterlockedSListHeadInit]
    · exact List.nodup_nil
    · simp [ilInterlockedSListHeadInit, ThreadState.appending]
    · simp [Links, ilInterlockedSListHeadInit]
    · exact fun _ => trivial
    · exact .inl ⟨rfl, fun _ => rfl⟩
  · exact fun _ => rfl
  · refine ⟨.refl _, fun t => ?_⟩
    simp [ilInterlockedSListHeadInit, SList.resultsOf, ThreadState.closing]

theorem InOrder.call (h : Inv s front queue) (horder : InOrder s) (hidle : s.thread t = .idle)
    {e : E} (hnew : e ∉ s.called.map Prod.snd) :
    InOrder { s.setThread t (.storeNext e) with called := s.called ++ [(t, e)] } := by
  have hfilter : ∀ t', s.exchanged.filter (· ∈ (s.calledBy t' ++ if t = t' then [e] else [])) =
      s.exchanged.filter (· ∈ s.calledBy t') := by
    intro t'
    apply List.filter_congr
    intro e' he'
    have hne : e' ≠ e := by
      rintro rfl
      exact hnew (h.isCalled e' he')
    split_ifs <;> simp [hne]
  intro t'
  have ht' := horder t'
  have hcalledBy : ({ s.setThread t (.storeNext e) with called := s.called ++ [(t, e)] } :
      SList T E).calledBy t' = s.calledBy t' ++ if t = t' then [e] else [] := by
    by_cases heq : t = t' <;> simp [SList.calledBy, heq]
  rw [hcalledBy]
  refine (congrArg (· ++ _) (hfilter t')).trans ?_
  by_cases heq : t' = t
  · subst heq
    rw [hidle] at ht'
    simp only [ThreadState.unexchanged, List.append_nil] at ht'
    simp [SList.setThread, ThreadState.unexchanged, ht']
  · rw [if_neg (Ne.symm heq), List.append_nil]
    simpa [SList.setThread, heq] using ht'

/-- A call begins. -/
theorem Delivered.begin {state : ThreadState E} {called : List (T × E)}
    (h : Delivered s front) (hidle : s.thread t = .idle) (hstate : state.closing = none) :
    Delivered { s.setThread t state with called := called } front := by
  refine ⟨h.shared, fun t' => ?_⟩
  have hsub := h.inOrder t'
  by_cases heq : t' = t
  · subst heq
    have hthread : ((s.setThread t' state).thread t').closing = none := by
      rw [thread_setThread_self, hstate]
    rw [hidle] at hsub
    exact hthread ▸ hsub
  · simpa [SList.setThread, SList.resultsOf, heq] using hsub

/-- The three invariants together. -/
def Holds (s : SList T E) : Prop :=
  ∃ front queue, Inv s front queue ∧ InOrder s ∧ Delivered s front

theorem Holds.run (h : Holds s) {event : Event T E} {s' : SList T E}
    (hrun : event.run s = some s') : Holds s' := by
  obtain ⟨front, queue, hinv, horder, hdelivered⟩ := h
  cases event with
  | append t e =>
    simp only [Event.run, Option.ite_none_right_eq_some, Option.some.injEq] at hrun
    obtain ⟨⟨hidle, hnew⟩, rfl⟩ := hrun
    exact ⟨front, queue, hinv.call hidle hnew, horder.call hinv hidle hnew,
      hdelivered.begin hidle rfl⟩
  | get t =>
    simp only [Event.run, Option.ite_none_right_eq_some, Option.some.injEq] at hrun
    obtain ⟨hidle, rfl⟩ := hrun
    refine ⟨front, queue, ?_, ?_, hdelivered.begin hidle rfl⟩
    · refine hinv.move ?_ rfl ?_ trivial
      · simp [hidle, ThreadState.appending]
      · simp [hidle, ThreadState.closing]
    · intro t'
      rw [unexchanged_setThread (by rw [hidle]; rfl)]
      exact horder t'
  | step t =>
    obtain rfl := Option.some.inj hrun
    obtain ⟨front', queue', hinv'⟩ := hinv.exec t
    exact ⟨front', queue', hinv', horder.exec hinv t, hdelivered.exec hinv hinv'⟩

theorem Holds.runAll (h : Holds s) {events : List (Event T E)} {s' : SList T E}
    (hrun : InterlockedSList.runAll s events = some s') : Holds s' := by
  induction events generalizing s with
  | nil =>
    obtain rfl := Option.some.inj hrun
    exact h
  | cons event events ih =>
    obtain ⟨next, hnext, hrest⟩ := Option.bind_eq_some_iff.1 hrun
    exact ih (h.run hnext) hrest

/-- Whatever the threads do and however their steps are interleaved, each element is taken at
most once, and in the order in which its producer appended it; of a list that is drained,
each exactly once. -/
theorem interlockedSList_sound (memory : Ptr E → Ptr E) (events : List (Event T E))
    (s : SList T E) (hrun : runAll (ilInterlockedSListHeadInit memory) events = some s) :
    Sound s := by
  have hinit : Holds (T := T) (ilInterlockedSListHeadInit memory) :=
    ⟨.head, [], inv_init memory⟩
  obtain ⟨front, queue, hinv, horder, hdelivered⟩ := hinit.runAll hrun
  exact hinv.sound horder hdelivered

/-- Two producers and a consumer, which takes the first element while the second producer has
moved the tail and not written its link. -/
def sampleEvents : List (Event Nat Nat) :=
  [.append 0 7, .step 0, .step 0, .step 0, .get 2, .step 2, .step 2, .append 1 8, .step 1,
    .step 1, .step 2, .step 2, .step 2, .step 1, .step 2, .step 2, .get 2, .step 2, .step 2,
    .step 2, .step 2]

theorem interlockedSList_sound_sample :
    ∃ s : SList Nat Nat, runAll (ilInterlockedSListHeadInit id) sampleEvents = some s ∧
      s.returned = [(2, some (.elem 7)), (2, some (.elem 8))] ∧ Sound s :=
  ⟨_, rfl, by decide, interlockedSList_sound id sampleEvents _ rfl⟩

/-! ### A thread that runs alone -/

/-- At most so many steps are left of a call where nobody else makes one. -/
def stepsLeft (s : SList T E) : ThreadState E → Nat
  | .idle => 0
  | .linkPrev .. | .storeHead .. => 1
  | .exchangeTail _ | .waitNext _ => 2
  | .storeNext _ | .casTail _ => 3
  | .casHead prevHead _ => if s.next .head = prevHead then 4 else 7
  | .loadNext prevHead => if s.next .head = prevHead then 5 else 8
  | .loadHead => 6

/-- A thread only waits for the link of another one. -/
theorem stepsLeft_exec (h : Inv s front queue)
    (hlinked : ∀ t' e a, t' ≠ t → s.thread t' ≠ .linkPrev e a) (hbusy : s.thread t ≠ .idle) :
    stepsLeft (exec s t) ((exec s t).thread t) < stepsLeft s (s.thread t) := by
  cases ht : s.thread t with
  | idle => exact absurd ht hbusy
  | waitNext prevHead =>
    have hwait := h.threads t
    rw [ht] at hwait
    obtain ⟨rfl, hqueue⟩ := hwait
    obtain ⟨e, rest, rfl⟩ := List.exists_cons_of_ne_nil hqueue
    have hnext : s.next prevHead ≠ .tail := by
      rcases h.links.1 with heq | ⟨-, t', hpending⟩
      · simp [heq]
      · have hne : t' ≠ t := by
          rintro rfl
          simp [ht] at hpending
        exact absurd hpending (hlinked t' e prevHead hne)
    simp [exec, ht, hnext, SList.setThread, stepsLeft]
  | casHead prevHead nextHead =>
    simp only [exec, ht]
    split_ifs <;> simp_all [SList.setThread, SList.setNext, SList.ret, stepsLeft]
  | loadNext prevHead =>
    simp only [exec, ht, SList.setThread, Function.update_self, stepsLeft]
    split_ifs <;> omega
  | _ =>
    simp only [exec, ht]
    try split_ifs
    all_goals simp [SList.setThread, SList.setNext, SList.ret, stepsLeft]

theorem Inv.runs_out (h : Inv s front queue)
    (hlinked : ∀ t' e a, t' ≠ t → s.thread t' ≠ .linkPrev e a) {n : Nat}
    (hn : stepsLeft s (s.thread t) ≤ n) : ∃ k ≤ n, ∃ s',
      runAll s (List.replicate k (.step t)) = some s' ∧ s'.thread t = .idle := by
  induction n generalizing s front queue with
  | zero =>
    have hidle : s.thread t = .idle := by
      by_contra hbusy
      exact absurd (stepsLeft_exec h hlinked hbusy) (by omega)
    exact ⟨0, Nat.le_refl _, s, rfl, hidle⟩
  | succ n ih =>
    by_cases hidle : s.thread t = .idle
    · exact ⟨0, Nat.zero_le _, s, rfl, hidle⟩
    · have hless := stepsLeft_exec h hlinked hidle
      obtain ⟨front', queue', h'⟩ := h.exec t
      obtain ⟨k, hk, s', hrun, hend⟩ := ih h' (fun t' e a hne => by
        rw [thread_exec_of_ne hne]
        exact hlinked t' e a hne) (by omega)
      exact ⟨k + 1, Nat.succ_le_succ hk, s', hrun, hend⟩

/-- Whatever the other threads have left undone but the link of an element, a thread that runs
alone gets through its call. -/
theorem runAll_alone (memory : Ptr E → Ptr E) {events : List (Event T E)}
    (hrun : runAll (ilInterlockedSListHeadInit memory) events = some s)
    (hlinked : ∀ t' e a, t' ≠ t → s.thread t' ≠ .linkPrev e a) : ∃ k ≤ 8, ∃ s',
      runAll s (List.replicate k (.step t)) = some s' ∧ s'.thread t = .idle := by
  obtain ⟨front, queue, hinv, -⟩ := Holds.runAll ⟨.head, [], inv_init memory⟩ hrun
  refine hinv.runs_out hlinked ?_
  unfold stepsLeft
  split <;> (try split_ifs) <;> decide

theorem runAll_alone_sample : ∃ s : SList Nat Nat,
    runAll (ilInterlockedSListHeadInit id) [.get 2] = some s ∧
      ∃ k ≤ 8, ∃ s', runAll s (List.replicate k (.step 2)) = some s' ∧ s'.thread 2 = .idle :=
  ⟨_, rfl, runAll_alone id (rfl : runAll _ [.get 2] = some _) fun t' e a hne => by
    simp [hne, SList.setThread, ilInterlockedSListHeadInit]⟩

end Runs

end Pnet.Support.InterlockedSList
