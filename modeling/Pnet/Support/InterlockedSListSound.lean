import Mathlib.Data.List.Nodup
import Pnet.Support.InterlockedSList

/-! What the lock-free list hands out. The elements that are in the list form one chain from
its front to the element that `tail` names, in which a link is missing as long as the
thread that has to write it is on its way; the front is the head of the list, or an element
whose taker has yet to see what follows it. -/
namespace Pnet.Support.InterlockedSList

variable {T E : Type}

/-! ### The chain -/

section Chain

variable {next next' : Ptr E → Ptr E} {pending pending' : E → Ptr E → Prop} {a b : Ptr E} {e : E}
  {queue : List E}

/-- `queue` is what follows `a` in the list; of `pending e a` the link from `a` to `e` is
still to be written. -/
def Links (next : Ptr E → Ptr E) (pending : E → Ptr E → Prop) : Ptr E → List E → Prop
  | a, [] => next .tail = a ∧ next a = .tail
  | a, e :: queue => (next a = .elem e ∨ next a = .tail ∧ pending e a) ∧
      Links next pending (.elem e) queue

/-- `e` comes right after `a`. -/
def Adjacent (a : Ptr E) (e : E) : Ptr E → List E → Prop
  | _, [] => False
  | b, y :: queue => a = b ∧ e = y ∨ Adjacent a e (.elem y) queue

def cells (front : Ptr E) (queue : List E) : List (Ptr E) := front :: queue.map .elem

theorem Adjacent.mem (h : Adjacent a e b queue) : a ∈ cells b queue ∧ e ∈ queue := by
  induction queue generalizing b with
  | nil => cases h
  | cons y queue ih =>
    rcases h with ⟨rfl, rfl⟩ | h
    · simp [cells]
    · obtain ⟨ha, he⟩ := ih h
      exact ⟨List.mem_cons_of_mem _ ha, List.mem_cons_of_mem _ he⟩

theorem Adjacent.unique (h : Adjacent a e b queue) {e' : E} (h' : Adjacent a e' b queue)
    (hnodup : (cells b queue).Nodup) : e = e' := by
  induction queue generalizing b with
  | nil => cases h
  | cons y queue ih =>
    have htail : (cells (.elem y) queue).Nodup := (List.nodup_cons.1 hnodup).2
    have hnot : b ∉ cells (.elem y) queue := (List.nodup_cons.1 hnodup).1
    rcases h with ⟨rfl, rfl⟩ | h <;> rcases h' with ⟨heq, rfl⟩ | h'
    · rfl
    · exact absurd h'.mem.1 hnot
    · subst heq
      exact absurd h.mem.1 hnot
    · exact ih h h' htail

theorem Adjacent.concat (h : Adjacent a e b queue) (z : E) : Adjacent a e b (queue ++ [z]) := by
  induction queue generalizing b with
  | nil => cases h
  | cons y queue ih => exact h.imp_right ih

/-- The first link of a chain is written, so no thread has to. -/
theorem Adjacent.tail {y : E} (h : Adjacent a e b (y :: queue)) (hne : a ≠ b) :
    Adjacent a e (.elem y) queue :=
  h.resolve_left fun hhead => hne hhead.1

theorem Links.congr (h : Links next pending a queue)
    (hcells : ∀ b ∈ cells a queue, next' b = next b) (htail : next' .tail = next .tail)
    (hpending : ∀ e b, b ∈ cells a queue → pending e b → pending' e b) :
    Links next' pending' a queue := by
  induction queue generalizing a with
  | nil =>
    have ha := hcells a (by simp [cells])
    exact ⟨htail.trans h.1, ha.trans h.2⟩
  | cons y queue ih =>
    have ha := hcells a (by simp [cells])
    constructor
    · rw [ha]
      exact h.1.imp_right (And.imp_right (hpending y a (by simp [cells])))
    · apply ih h.2
      · exact fun b hb => hcells b (List.mem_cons_of_mem _ hb)
      · exact fun e b hb => hpending e b (List.mem_cons_of_mem _ hb)

/-- The tail names the last cell, which has nothing after it. -/
theorem Links.last (h : Links next pending a queue) :
    next .tail ∈ cells a queue ∧ next (next .tail) = .tail := by
  induction queue generalizing a with
  | nil =>
    obtain ⟨hlast, hend⟩ := h
    rw [hlast]
    exact ⟨by simp [cells], hend⟩
  | cons y queue ih =>
    obtain ⟨hmem, hend⟩ := ih h.2
    exact ⟨List.mem_cons_of_mem _ hmem, hend⟩

theorem Links.eq_nil (h : Links next pending a queue) (hlast : next .tail = a)
    (hnodup : (cells a queue).Nodup) : queue = [] := by
  cases queue with
  | nil => rfl
  | cons y queue => exact absurd (hlast ▸ h.2.last.1) (List.nodup_cons.1 hnodup).1

theorem Links.adjacent_concat (h : Links next pending a queue) (z : E) :
    Adjacent (next .tail) z a (queue ++ [z]) := by
  induction queue generalizing a with
  | nil => exact .inl ⟨h.1, rfl⟩
  | cons y queue ih => exact .inr (ih h.2)

variable [DecidableEq E]

/-- The tail is exchanged for a new element. -/
theorem Links.exchange (h : Links next pending a queue) {z : E} (hz : next (.elem z) = .tail)
    (hnew : Ptr.elem z ∉ cells a queue) (htail : Ptr.tail ∉ cells a queue)
    (hpending : ∀ e b, pending e b → pending' e b) (hz' : pending' z (next .tail)) :
    Links (Function.update next .tail (.elem z)) pending' a (queue ++ [z]) := by
  have hnext : ∀ b ≠ .tail, Function.update next .tail (.elem z) b = next b :=
    fun b hb => Function.update_of_ne hb _ _
  induction queue generalizing a with
  | nil =>
    have ha : a ≠ .tail := fun heq => htail (by simp [cells, heq])
    refine ⟨.inr ⟨?_, h.1 ▸ hz'⟩, Function.update_self .., ?_⟩
    · rw [hnext a ha, h.2]
    · rw [hnext _ (by simp), hz]
  | cons y queue ih =>
    have ha : a ≠ .tail := fun heq => htail (by simp [cells, heq])
    constructor
    · rw [hnext a ha]
      exact h.1.imp_right (And.imp_right (hpending y a))
    · apply ih h.2
      · exact fun hmem => hnew (List.mem_cons_of_mem _ hmem)
      · exact fun hmem => htail (List.mem_cons_of_mem _ hmem)

/-- A thread writes the link that it has to. -/
theorem Links.write (h : Links next pending a queue) (hb : Adjacent b e a queue)
    (hnodup : (cells a queue).Nodup) (htail : Ptr.tail ∉ cells a queue)
    (hpending : ∀ e' b', b' ≠ b → pending e' b' → pending' e' b') :
    Links (Function.update next b (.elem e)) pending' a queue := by
  have hne : b ≠ .tail := fun heq => htail (heq ▸ hb.mem.1)
  induction queue generalizing a with
  | nil => cases hb
  | cons y queue ih =>
    obtain ⟨hnot, hnodup'⟩ := List.nodup_cons.1 hnodup
    have htail' : Ptr.tail ∉ cells (.elem y) queue := fun hmem => htail (List.mem_cons_of_mem _ hmem)
    rcases hb with ⟨rfl, rfl⟩ | hb
    · refine ⟨.inl (Function.update_self ..), h.2.congr ?_ ?_ ?_⟩
      · intro b' hb'
        apply Function.update_of_ne
        rintro rfl
        exact hnot hb'
      · exact Function.update_of_ne hne.symm _ _
      · intro e' b' hb'
        apply hpending
        rintro rfl
        exact hnot hb'
    · have hab : a ≠ b := by
        rintro rfl
        exact hnot hb.mem.1
      refine ⟨?_, ih h.2 hb hnodup' htail'⟩
      rw [Function.update_of_ne hab]
      exact h.1.imp_right (And.imp_right (hpending y a hab))

end Chain

/-! ### The invariant -/

namespace ThreadState

/-- The element that a thread is appending. -/
def appending : ThreadState E → Option E
  | storeNext elem | exchangeTail elem | linkPrev elem _ => some elem
  | _ => none

/-- The element that a thread has removed and not returned yet. -/
def closing : ThreadState E → Option (Ptr E)
  | casTail prevHead | waitNext prevHead | storeHead prevHead _ => some prevHead
  | _ => none

end ThreadState

/-- What a thread knows of the memory. -/
def ThreadInv (next : Ptr E → Ptr E) (exchanged : List E) (front : Ptr E) (queue : List E) :
    ThreadState E → Prop
  | .idle | .loadHead => True
  | .storeNext e => e ∉ exchanged
  | .exchangeTail e => e ∉ exchanged ∧ next (.elem e) = .tail
  | .linkPrev e a => next a = .tail ∧ Adjacent a e front queue
  | .loadNext a => a ∈ exchanged.map .elem
  | .casHead a b => a ∈ exchanged.map .elem ∧ (b ≠ .tail → next a = b)
  | .casTail a => a = front
  | .waitNext a => a = front ∧ queue ≠ []
  | .storeHead a b => a = front ∧ next a = b ∧ b ≠ .tail

def Pending (s : SList T E) (e : E) (a : Ptr E) : Prop := ∃ t, s.thread t = .linkPrev e a

/-- The front is the head of the list, or the element that one thread has removed. -/
def IsFront (s : SList T E) (front : Ptr E) : Prop :=
  (front = .head ∧ ∀ t, (s.thread t).closing = none) ∨
    (front ∈ s.taken ∧ s.next .head = .tail ∧ ∃ t, (s.thread t).closing = some front ∧
      ∀ t', t' ≠ t → (s.thread t').closing = none)

structure Inv (s : SList T E) (front : Ptr E) (queue : List E) : Prop where
  split : s.exchanged.map .elem = s.taken ++ queue.map .elem
  nodup : s.exchanged.Nodup
  isCalled : ∀ e ∈ s.exchanged, e ∈ s.called.map Prod.snd
  calledOnce : (s.called.map Prod.snd).Nodup
  busy : ∀ t e, (s.thread t).appending = some e → (t, e) ∈ s.called
  links : Links s.next (Pending s) front queue
  threads : ∀ t, ThreadInv s.next s.exchanged front queue (s.thread t)
  isFront : IsFront s front

section Facts

variable {s : SList T E} {front : Ptr E} {queue : List E} (h : Inv s front queue)
include h

theorem Inv.nodup_ptrs : (s.taken ++ queue.map Ptr.elem).Nodup := by
  rw [← h.split]
  apply h.nodup.map
  exact fun _ _ => Ptr.elem.inj

theorem Inv.mem_taken {a : Ptr E} (ha : a ∈ s.taken) : a ∈ s.exchanged.map .elem := by
  rw [h.split]
  exact List.mem_append_left _ ha

theorem Inv.mem_queue {e : E} (he : e ∈ queue) : e ∈ s.exchanged := by
  have hmem : Ptr.elem e ∈ s.exchanged.map .elem := by
    rw [h.split]
    exact List.mem_append_right _ (List.mem_map_of_mem he)
  simpa using hmem

theorem Inv.front_ne_tail : front ≠ .tail := by
  rintro rfl
  rcases h.isFront with ⟨heq, _⟩ | ⟨hmem, _⟩
  · cases heq
  · simpa using h.mem_taken hmem

theorem Inv.tail_notMem : Ptr.tail ∉ cells front queue := by
  simp [cells, h.front_ne_tail.symm]

theorem Inv.nodup_cells : (cells front queue).Nodup := by
  have hptrs := h.nodup_ptrs
  refine List.nodup_cons.2 ⟨fun hmem => ?_, hptrs.of_append_right⟩
  rcases h.isFront with ⟨heq, _⟩ | ⟨hfront, _⟩
  · simp [heq] at hmem
  · exact (List.nodup_append.1 hptrs).2.2 front hfront front hmem rfl

theorem Inv.mem_cells {e : E} (he : .elem e ∈ cells front queue) : e ∈ s.exchanged := by
  rcases List.mem_cons.1 he with heq | hmem
  · rcases h.isFront with ⟨hhead, _⟩ | ⟨hfront, _⟩
    · rw [hhead] at heq
      cases heq
    · rw [← heq] at hfront
      simpa using h.mem_taken hfront
  · simp only [List.mem_map, Ptr.elem.injEq, exists_eq_right] at hmem
    exact h.mem_queue hmem

theorem Inv.head_notMem (hfront : front ∈ s.taken) : Ptr.head ∉ cells front queue := by
  intro hmem
  rcases List.mem_cons.1 hmem with heq | hmem
  · rw [← heq] at hfront
    simpa using h.mem_taken hfront
  · simp at hmem

/-- A thread that is closing has the front. -/
theorem Inv.closing_eq {t : T} {a : Ptr E} (ha : (s.thread t).closing = some a) : a = front := by
  have ht := h.threads t
  cases hstate : s.thread t <;> rw [hstate] at ha ht <;> cases ha
  · exact ht
  · exact ht.1
  · exact ht.1

theorem Inv.closing_front {t : T} {a : Ptr E} (ha : (s.thread t).closing = some a) :
    front ∈ s.taken ∧ s.next .head = .tail ∧ ∀ t', t' ≠ t → (s.thread t').closing = none := by
  rcases h.isFront with ⟨_, hnone⟩ | ⟨hfront, hhead, t₀, ht₀, hothers⟩
  · rw [hnone t] at ha
    cases ha
  · have hsame : t = t₀ := by
      by_contra hne
      rw [hothers t hne] at ha
      cases ha
    exact ⟨hfront, hhead, hsame ▸ hothers⟩

/-- Two threads do not append the same element. -/
theorem Inv.appending_unique {t t' : T} {e : E} (ht : (s.thread t).appending = some e)
    (ht' : (s.thread t').appending = some e) : t = t' := by
  have hinj := List.inj_on_of_nodup_map h.calledOnce (h.busy t e ht) (h.busy t' e ht') rfl
  exact congrArg Prod.fst hinj

end Facts

/-! ### Steps that leave the memory alone -/

section Local

variable [DecidableEq T] {s : SList T E} {front : Ptr E} {queue : List E} {t : T}
  {state : ThreadState E}

theorem forall_setThread {P : ThreadState E → Prop} (hothers : ∀ t', t' ≠ t → P (s.thread t'))
    (ht : P state) (t' : T) : P ((s.setThread t state).thread t') := by
  by_cases heq : t' = t
  · simpa [SList.setThread, heq] using ht
  · simpa [SList.setThread, heq] using hothers t' heq

theorem thread_setThread_self : (s.setThread t state).thread t = state := by
  simp [SList.setThread]

theorem thread_setThread_of_ne {t' : T} (h : t' ≠ t) :
    (s.setThread t state).thread t' = s.thread t' := by
  simp [SList.setThread, h]

/-- A pending link stays pending unless its own thread goes on. -/
theorem Pending.setThread {e : E} {a : Ptr E} (h : Pending s e a)
    (ht : s.thread t ≠ .linkPrev e a) : Pending (s.setThread t state) e a := by
  obtain ⟨t', ht'⟩ := h
  have hne : t' ≠ t := by
    rintro rfl
    exact ht ht'
  exact ⟨t', (thread_setThread_of_ne hne).trans ht'⟩

theorem IsFront.setThread (h : IsFront s front)
    (hclosing : state.closing = (s.thread t).closing) :
    IsFront (s.setThread t state) front := by
  have hsame : ∀ t', ((s.setThread t state).thread t').closing = (s.thread t').closing := by
    intro t'
    by_cases heq : t' = t
    · rw [heq, thread_setThread_self, hclosing]
    · rw [thread_setThread_of_ne heq]
  unfold IsFront
  simp only [hsame]
  exact h

omit [DecidableEq T] in
theorem IsFront.withNext (h : IsFront s front) {next : Ptr E → Ptr E} {exchanged : List E}
    (hhead : front ∈ s.taken → s.next .head = .tail → next .head = s.next .head) :
    IsFront { s with next := next, exchanged := exchanged } front := by
  rcases h with hopen | ⟨hfront, htail, hclosing⟩
  · exact .inl hopen
  · exact .inr ⟨hfront, (hhead hfront htail).trans htail, hclosing⟩

/-- A thread that appends nothing goes on with what it has in hand. -/
theorem Inv.move (h : Inv s front queue) (hold : (s.thread t).appending = none)
    (hnew : state.appending = none) (hclosing : state.closing = (s.thread t).closing)
    (hstate : ThreadInv s.next s.exchanged front queue state) :
    Inv (s.setThread t state) front queue where
  split := h.split
  nodup := h.nodup
  isCalled := h.isCalled
  calledOnce := h.calledOnce
  busy t' e := by
    by_cases heq : t' = t
    · simp [heq, thread_setThread_self, hnew]
    · rw [thread_setThread_of_ne heq]
      exact h.busy t' e
  links := by
    apply h.links.congr (fun _ _ => rfl) rfl
    intro e a _ hpending
    apply hpending.setThread
    intro heq
    simp [heq, ThreadState.appending] at hold
  threads := forall_setThread (fun t' _ => h.threads t') hstate
  isFront := h.isFront.setThread hclosing

omit [DecidableEq T] in
/-- Results do not count for the list. -/
theorem Inv.withReturned (h : Inv s front queue) (returned : List (T × Option (Ptr E))) :
    Inv { s with returned := returned } front queue :=
  ⟨h.split, h.nodup, h.isCalled, h.calledOnce, h.busy, h.links, h.threads, h.isFront⟩

/-- A call of `ILInterlockedSListAppend`. -/
theorem Inv.call (h : Inv s front queue) (hidle : s.thread t = .idle) {e : E}
    (hnew : e ∉ s.called.map Prod.snd) :
    Inv { s.setThread t (.storeNext e) with called := s.called ++ [(t, e)] } front queue where
  split := h.split
  nodup := h.nodup
  isCalled e' he' := by simpa using Or.inl (by simpa using h.isCalled e' he')
  calledOnce := by
    rw [List.map_append, List.map_singleton, ← List.concat_eq_append]
    exact List.Nodup.concat hnew h.calledOnce
  busy t' e' := by
    by_cases heq : t' = t
    · intro happending
      have hsame : e = e' := by
        simpa [heq, SList.setThread, ThreadState.appending] using happending
      simp [heq, hsame]
    · intro happending
      have hbusy := h.busy t' e' (by simpa [SList.setThread, heq] using happending)
      exact List.mem_append_left _ hbusy
  links := by
    apply h.links.congr (fun _ _ => rfl) rfl
    intro e' a _ hpending
    exact hpending.setThread (by simp [hidle])
  threads := by
    apply forall_setThread fun t' _ => h.threads t'
    exact fun hmem => hnew (h.isCalled e hmem)
  isFront := h.isFront.setThread (by rw [hidle]; rfl)

end Local

/-! ### Steps that write -/

/-- What another thread knows stays true. -/
theorem ThreadInv.mono {next next' : Ptr E → Ptr E} {exchanged exchanged' : List E}
    {front front' : Ptr E} {queue queue' : List E} {state : ThreadState E}
    (h : ThreadInv next exchanged front queue state)
    (hmem : ∀ e ∈ exchanged, e ∈ exchanged')
    (hfresh : ∀ e, state.appending = some e → e ∉ exchanged →
      e ∉ exchanged' ∧ next' (.elem e) = next (.elem e))
    (hpending : ∀ e a, state = .linkPrev e a → next a = .tail → Adjacent a e front queue →
      next' a = .tail ∧ Adjacent a e front' queue')
    (hlinked : ∀ a ∈ exchanged.map Ptr.elem, next a ≠ .tail → next' a = next a)
    (hclosing : ∀ a, state.closing = some a →
      front' = front ∧ front ∈ exchanged.map .elem ∧ (queue ≠ [] → queue' ≠ [])) :
    ThreadInv next' exchanged' front' queue' state := by
  have hmem' : ∀ a ∈ exchanged.map Ptr.elem, a ∈ exchanged'.map Ptr.elem :=
    fun a ha => List.map_subset _ hmem ha
  cases state with
  | idle => trivial
  | storeNext e => exact (hfresh e rfl h).1
  | exchangeTail e =>
    obtain ⟨hnew, hsame⟩ := hfresh e rfl h.1
    exact ⟨hnew, hsame.trans h.2⟩
  | linkPrev e a => exact hpending e a rfl h.1 h.2
  | loadHead => trivial
  | loadNext a => exact hmem' a h
  | casHead a b =>
    refine ⟨hmem' a h.1, fun hb => ?_⟩
    have hnext := h.2 hb
    rw [hlinked a h.1 (by rwa [hnext]), hnext]
  | casTail a =>
    obtain ⟨hfront, _⟩ := hclosing a rfl
    exact h.trans hfront.symm
  | waitNext a =>
    obtain ⟨hfront, _, hqueue⟩ := hclosing a rfl
    exact ⟨h.1.trans hfront.symm, hqueue h.2⟩
  | storeHead a b =>
    obtain ⟨hfront, hfrontMem, _⟩ := hclosing a rfl
    obtain ⟨rfl, hnext, hb⟩ := h
    refine ⟨hfront.symm, ?_, hb⟩
    rw [hlinked a hfrontMem (by rwa [hnext]), hnext]

section Writes

variable [DecidableEq T] {s : SList T E} {front : Ptr E} {queue : List E} {t : T}
  {state : ThreadState E}

/-- The front moves: only `head` or `tail` is written, by the one thread that may. -/
theorem Inv.refront (h : Inv s front queue) {next' : Ptr E → Ptr E} {taken' : List (Ptr E)}
    {front' : Ptr E} {queue' : List E}
    (hold : (s.thread t).appending = none) (hnew : state.appending = none)
    (hothers : ∀ t', t' ≠ t → (s.thread t').closing = none)
    (hsplit : s.taken ++ queue.map .elem = taken' ++ queue'.map .elem)
    (hnext : ∀ e, next' (.elem e) = s.next (.elem e))
    (hpending : ∀ a e, s.next a = .tail → Adjacent a e front queue →
      next' a = .tail ∧ Adjacent a e front' queue')
    (hlinks : Links next' (Pending s) front' queue')
    (hstate : ThreadInv next' s.exchanged front' queue' state)
    (hfront : front' = .head ∧ state.closing = none ∨
      front' ∈ taken' ∧ next' .head = .tail ∧ state.closing = some front') :
    Inv { s.setThread t state with next := next', taken := taken' } front' queue' where
  split := h.split.trans hsplit
  nodup := h.nodup
  isCalled := h.isCalled
  calledOnce := h.calledOnce
  busy t' e := by
    by_cases heq : t' = t
    · simp [heq, SList.setThread, hnew]
    · simpa [SList.setThread, heq] using h.busy t' e
  links := by
    apply hlinks.congr (fun _ _ => rfl) rfl
    intro e a _ hpending
    apply hpending.setThread
    intro heq
    simp [heq, ThreadState.appending] at hold
  threads := by
    apply forall_setThread _ hstate
    intro t' ht'
    apply (h.threads t').mono
    · exact fun _ he => he
    · exact fun e _ he => ⟨he, hnext e⟩
    · exact fun e a _ ha hadj => hpending a e ha hadj
    · intro a ha _
      obtain ⟨e, _, rfl⟩ := List.mem_map.1 ha
      exact hnext e
    · intro a ha
      rw [hothers t' ht'] at ha
      cases ha
  isFront := by
    have hnone : ∀ t', t' ≠ t → ((s.setThread t state).thread t').closing = none := by
      intro t' ht'
      rw [thread_setThread_of_ne ht', hothers t' ht']
    rcases hfront with ⟨hhead, hclosing⟩ | ⟨htaken, hhead, hclosing⟩
    · refine .inl ⟨hhead, fun t' => ?_⟩
      by_cases heq : t' = t
      · rw [heq]
        exact (congrArg ThreadState.closing thread_setThread_self).trans hclosing
      · exact hnone t' heq
    · refine .inr ⟨htaken, hhead, t, ?_, hnone⟩
      exact (congrArg ThreadState.closing thread_setThread_self).trans hclosing

variable [DecidableEq E]

theorem Inv.storeNext (h : Inv s front queue) {e : E} (ht : s.thread t = .storeNext e) :
    Inv { s.setThread t (.exchangeTail e) with
      next := Function.update s.next (.elem e) .tail } front queue := by
  have hnew : e ∉ s.exchanged := by
    have hinv := h.threads t
    rwa [ht] at hinv
  have hnext : ∀ a, a ≠ .elem e → Function.update s.next (.elem e) .tail a = s.next a :=
    fun a ha => Function.update_of_ne ha _ _
  have hcells : ∀ a ∈ cells front queue, a ≠ .elem e := by
    rintro a ha rfl
    exact hnew (h.mem_cells ha)
  constructor
  · exact h.split
  · exact h.nodup
  · exact h.isCalled
  · exact h.calledOnce
  · intro t' e' ht'
    by_cases heq : t' = t
    · subst heq
      rw [thread_setThread_self] at ht'
      cases ht'
      exact h.busy t' e (by rw [ht]; rfl)
    · rw [thread_setThread_of_ne heq] at ht'
      exact h.busy t' e' ht'
  · apply h.links.congr
    · exact fun a ha => hnext a (hcells a ha)
    · exact hnext .tail (by simp)
    · intro e' a _ hpending
      exact hpending.setThread (by simp [ht])
  · refine forall_setThread (P := ThreadInv _ _ _ _) ?_ ?_
    · intro t' ht'
      apply (h.threads t').mono
      · exact fun _ he => he
      · intro e' he' hnew'
        refine ⟨hnew', hnext _ fun heq => ?_⟩
        cases heq
        exact ht' (h.appending_unique he' (by rw [ht]; rfl))
      · intro e' a _ ha hadj
        exact ⟨(hnext a (hcells a hadj.mem.1)).trans ha, hadj⟩
      · rintro a ha _
        apply hnext
        rintro rfl
        exact hnew (by simpa using ha)
      · exact fun a ha => ⟨rfl, h.mem_taken (h.closing_front ha).1, id⟩
    · exact ⟨hnew, Function.update_self ..⟩
  · apply (h.isFront.setThread (by rw [ht]; rfl)).withNext
    exact fun _ _ => hnext .head (by simp)

theorem Inv.exchangeTail (h : Inv s front queue) {e : E} (ht : s.thread t = .exchangeTail e) :
    Inv { s.setThread t (.linkPrev e (s.next .tail)) with
      next := Function.update s.next .tail (.elem e)
      exchanged := s.exchanged ++ [e] } front (queue ++ [e]) := by
  obtain ⟨hnew, hend⟩ : e ∉ s.exchanged ∧ s.next (.elem e) = .tail := by
    have hinv := h.threads t
    rwa [ht] at hinv
  have hnext : ∀ a, a ≠ .tail → Function.update s.next .tail (.elem e) a = s.next a :=
    fun a ha => Function.update_of_ne ha _ _
  have hcells : ∀ a ∈ cells front queue, a ≠ .tail := by
    rintro a ha rfl
    exact h.tail_notMem ha
  obtain ⟨hlast, hlastEnd⟩ := h.links.last
  have hbusy : (t, e) ∈ s.called := h.busy t e (by rw [ht]; rfl)
  constructor
  · simp [h.split, SList.setThread]
  · rw [← List.concat_eq_append]
    exact List.Nodup.concat hnew h.nodup
  · intro e' he'
    rcases List.mem_append.1 he' with he' | he'
    · exact h.isCalled e' he'
    · rw [List.mem_singleton.1 he']
      exact List.mem_map.2 ⟨_, hbusy, rfl⟩
  · exact h.calledOnce
  · intro t' e' ht'
    by_cases heq : t' = t
    · subst heq
      simp only [thread_setThread_self] at ht'
      cases ht'
      exact hbusy
    · simp only [thread_setThread_of_ne heq] at ht'
      exact h.busy t' e' ht'
  · apply h.links.exchange hend
    · exact fun hmem => hnew (h.mem_cells hmem)
    · exact h.tail_notMem
    · intro e' a hpending
      exact hpending.setThread (by simp [ht])
    · exact ⟨t, thread_setThread_self⟩
  · refine forall_setThread (P := ThreadInv _ _ _ _) ?_ ?_
    · intro t' ht'
      apply (h.threads t').mono
      · exact fun _ he => List.mem_append_left _ he
      · intro e' he' hnew'
        refine ⟨?_, hnext (.elem e') (by simp)⟩
        simp only [List.mem_append, List.mem_singleton, not_or]
        refine ⟨hnew', ?_⟩
        rintro rfl
        exact ht' (h.appending_unique he' (by rw [ht]; rfl))
      · intro e' a _ ha hadj
        exact ⟨(hnext a (hcells a hadj.mem.1)).trans ha, hadj.concat e⟩
      · intro a ha _
        apply hnext
        rintro rfl
        simp at ha
      · exact fun a ha => ⟨rfl, h.mem_taken (h.closing_front ha).1, fun _ => by simp⟩
    · exact ⟨(hnext _ (hcells _ hlast)).trans hlastEnd, h.links.adjacent_concat e⟩
  · apply (h.isFront.setThread (by rw [ht]; rfl)).withNext
    exact fun _ _ => hnext .head (by simp)

theorem Inv.linkPrev (h : Inv s front queue) {e : E} {a : Ptr E}
    (ht : s.thread t = .linkPrev e a) :
    Inv { s.setThread t .idle with next := Function.update s.next a (.elem e) } front queue := by
  obtain ⟨hend, hadj⟩ : s.next a = .tail ∧ Adjacent a e front queue := by
    have hinv := h.threads t
    rwa [ht] at hinv
  have hnext : ∀ b, b ≠ a → Function.update s.next a (.elem e) b = s.next b :=
    fun b hb => Function.update_of_ne hb _ _
  have happending : (s.thread t).appending = some e := by
    rw [ht]
    rfl
  constructor
  · exact h.split
  · exact h.nodup
  · exact h.isCalled
  · exact h.calledOnce
  · intro t' e' ht'
    by_cases heq : t' = t
    · rw [heq, thread_setThread_self] at ht'
      cases ht'
    · rw [thread_setThread_of_ne heq] at ht'
      exact h.busy t' e' ht'
  · apply h.links.write hadj h.nodup_cells h.tail_notMem
    intro e' b hb hpending
    apply hpending.setThread
    intro heq
    have heq' := ht.symm.trans heq
    cases heq'
    exact hb rfl
  · refine forall_setThread (P := ThreadInv _ _ _ _) ?_ ?_
    · intro t' ht'
      apply (h.threads t').mono
      · exact fun _ he => he
      · intro e' _ hnew'
        refine ⟨hnew', hnext _ ?_⟩
        rintro rfl
        exact hnew' (h.mem_cells hadj.mem.1)
      · intro e' b hstate hb hadj'
        refine ⟨(hnext b ?_).trans hb, hadj'⟩
        -- one link is not written by two threads
        rintro rfl
        have hsame := hadj'.unique hadj h.nodup_cells
        exact ht' (h.appending_unique (by rw [hstate, hsame]; rfl) happending)
      · intro b _ hb
        apply hnext
        rintro rfl
        exact hb hend
      · exact fun a ha => ⟨rfl, h.mem_taken (h.closing_front ha).1, id⟩
    · trivial
  · apply (h.isFront.setThread (by rw [ht]; rfl)).withNext
    intro hfront _
    apply hnext
    rintro rfl
    exact h.head_notMem hfront hadj.mem.1

omit [DecidableEq T] [DecidableEq E] in
/-- What a thread removes from the head is the first element of the queue. -/
theorem Inv.casHead_first (h : Inv s front queue) {a b : Ptr E} (ht : s.thread t = .casHead a b)
    (hhead : s.next .head = a) :
    front = .head ∧ (∀ t', (s.thread t').closing = none) ∧ ∃ x rest, queue = x :: rest ∧
      a = .elem x ∧ Links s.next (Pending s) (.elem x) rest ∧ (b ≠ .tail → s.next a = b) := by
  obtain ⟨hmem, hb⟩ : a ∈ s.exchanged.map .elem ∧ (b ≠ .tail → s.next a = b) := by
    have hinv := h.threads t
    rwa [ht] at hinv
  have ha : a ≠ .tail := by
    rintro rfl
    simp at hmem
  rcases h.isFront with ⟨rfl, hnone⟩ | ⟨_, htail, _⟩
  · refine ⟨rfl, hnone, ?_⟩
    have hlinks := h.links
    cases queue with
    | nil => exact absurd (hhead.symm.trans hlinks.2) ha
    | cons x rest =>
      have hx := hlinks.1.resolve_right fun hpending => ha (hhead.symm.trans hpending.1)
      exact ⟨x, rest, rfl, hhead.symm.trans hx, hlinks.2, hb⟩
  · exact absurd (hhead.symm.trans htail) ha

theorem Inv.casHead_last (h : Inv s front queue) {a : Ptr E} (ht : s.thread t = .casHead a .tail)
    (hhead : s.next .head = a) :
    ∃ queue', Inv { s.setThread t (.casTail a) with
      next := Function.update s.next .head .tail
      taken := s.taken ++ [a] } a queue' := by
  obtain ⟨rfl, hnone, x, rest, rfl, rfl, hlinks, _⟩ := h.casHead_first ht hhead
  refine ⟨rest, ?_⟩
  have hnext : ∀ b, b ≠ .head → Function.update s.next .head .tail b = s.next b :=
    fun b hb => Function.update_of_ne hb _ _
  apply h.refront
  · simp [ht, ThreadState.appending]
  · rfl
  · exact fun t' _ => hnone t'
  · simp
  · exact fun e => hnext (.elem e) (by simp)
  · intro b e hb hadj
    have hne : b ≠ .head := by
      rintro rfl
      simp [hb] at hhead
    exact ⟨(hnext b hne).trans hb, hadj.tail hne⟩
  · apply hlinks.congr
    · intro b hb
      apply hnext
      rintro rfl
      simp [cells] at hb
    · exact hnext .tail (by simp)
    · exact fun _ _ _ hpending => hpending
  · rfl
  · exact .inr ⟨by simp, Function.update_self .., rfl⟩

theorem Inv.casHead_next (h : Inv s front queue) {a b : Ptr E} (ht : s.thread t = .casHead a b)
    (hhead : s.next .head = a) (hb : b ≠ .tail) :
    ∃ queue', Inv { s.setThread t .idle with
      next := Function.update s.next .head b
      taken := s.taken ++ [a] } .head queue' := by
  obtain ⟨rfl, hnone, x, rest, rfl, rfl, hlinks, hnextX⟩ := h.casHead_first ht hhead
  have hx := hnextX hb
  cases rest with
  | nil => exact absurd (hx.symm.trans hlinks.2) hb
  | cons y rest =>
    have hy := hlinks.1.resolve_right fun hpending => hb (hx.symm.trans hpending.1)
    obtain rfl := hx.symm.trans hy
    refine ⟨y :: rest, ?_⟩
    have hnext : ∀ b, b ≠ .head → Function.update s.next .head (.elem y) b = s.next b :=
      fun b hb => Function.update_of_ne hb _ _
    apply h.refront
    · simp [ht, ThreadState.appending]
    · rfl
    · exact fun t' _ => hnone t'
    · simp
    · exact fun e => hnext (.elem e) (by simp)
    · intro b e hb' hadj
      have hne : b ≠ .head := by
        rintro rfl
        simp [hb'] at hhead
      have hne' : b ≠ .elem x := by
        rintro rfl
        simp [hb'] at hx
      exact ⟨(hnext b hne).trans hb', .inr ((hadj.tail hne).tail hne')⟩
    · refine ⟨.inl (Function.update_self ..), hlinks.2.congr ?_ ?_ ?_⟩
      · intro b hb
        apply hnext
        rintro rfl
        simp [cells] at hb
      · exact hnext .tail (by simp)
      · exact fun _ _ _ hpending => hpending
    · trivial
    · exact .inl ⟨rfl, rfl⟩

theorem Inv.casTail (h : Inv s front queue) {a : Ptr E} (ht : s.thread t = .casTail a)
    (htail : s.next .tail = a) :
    ∃ queue', Inv { s.setThread t .idle with
      next := Function.update s.next .tail .head
      taken := s.taken } .head queue' := by
  have hclosing : (s.thread t).closing = some a := by
    rw [ht]
    rfl
  obtain rfl := h.closing_eq hclosing
  obtain ⟨_, hhead, hothers⟩ := h.closing_front hclosing
  obtain rfl := h.links.eq_nil htail h.nodup_cells
  refine ⟨[], ?_⟩
  apply h.refront
  · simp [ht, ThreadState.appending]
  · rfl
  · exact hothers
  · rfl
  · intro e
    exact Function.update_of_ne (by simp) _ _
  · exact fun _ _ _ hadj => absurd hadj id
  · refine ⟨Function.update_self .., ?_⟩
    exact (Function.update_of_ne (by simp) _ _).trans hhead
  · trivial
  · exact .inl ⟨rfl, rfl⟩

theorem Inv.storeHead (h : Inv s front queue) {a b : Ptr E} (ht : s.thread t = .storeHead a b) :
    Inv { s.setThread t .idle with
      next := Function.update s.next .head b
      taken := s.taken } .head queue := by
  have hclosing : (s.thread t).closing = some a := by
    rw [ht]
    rfl
  obtain ⟨rfl, hnextA, hb⟩ : a = front ∧ s.next a = b ∧ b ≠ .tail := by
    have hinv := h.threads t
    rwa [ht] at hinv
  obtain ⟨hfront, hhead, hothers⟩ := h.closing_front hclosing
  have hlinks := h.links
  cases queue with
  | nil => exact absurd (hnextA.symm.trans hlinks.2) hb
  | cons y rest =>
    have hy := hlinks.1.resolve_right fun hpending => hb (hnextA.symm.trans hpending.1)
    obtain rfl := hnextA.symm.trans hy
    have hnext : ∀ b, b ≠ .head → Function.update s.next .head (.elem y) b = s.next b :=
      fun b hb => Function.update_of_ne hb _ _
    apply h.refront
    · simp [ht, ThreadState.appending]
    · rfl
    · exact hothers
    · rfl
    · exact fun e => hnext (.elem e) (by simp)
    · intro b e hb' hadj
      have hne : b ≠ .head := by
        rintro rfl
        exact h.head_notMem hfront hadj.mem.1
      have hne' : b ≠ a := by
        rintro rfl
        simp [hb'] at hnextA
      exact ⟨(hnext b hne).trans hb', .inr (hadj.tail hne')⟩
    · refine ⟨.inl (Function.update_self ..), hlinks.2.congr ?_ ?_ ?_⟩
      · intro b hb
        apply hnext
        rintro rfl
        simp [cells] at hb
      · exact hnext .tail (by simp)
      · exact fun _ _ _ hpending => hpending
    · trivial
    · exact .inl ⟨rfl, rfl⟩

/-- One step of a thread. -/
theorem Inv.exec (h : Inv s front queue) (t : T) :
    ∃ front' queue', Inv (InterlockedSList.exec s t) front' queue' := by
  have hinv := h.threads t
  unfold InterlockedSList.exec
  cases ht : s.thread t with
  | idle => exact ⟨front, queue, h⟩
  | storeNext e => exact ⟨front, queue, h.storeNext ht⟩
  | exchangeTail e => exact ⟨front, queue ++ [e], h.exchangeTail ht⟩
  | linkPrev e a => exact ⟨front, queue, h.linkPrev ht⟩
  | loadHead =>
    have hold : (s.thread t).appending = none := by simp [ht, ThreadState.appending]
    refine ⟨front, queue, ?_⟩
    dsimp only
    split_ifs with hhead
    · apply h.move hold rfl (by simp [ht, ThreadState.closing])
      rcases h.isFront with ⟨rfl, _⟩ | ⟨_, htail, _⟩
      · have hlinks := h.links
        cases queue with
        | nil => exact absurd hlinks.2 hhead
        | cons x rest =>
          have hx := hlinks.1.resolve_right fun hpending => hhead hpending.1
          rw [hx]
          exact List.mem_map_of_mem (h.mem_queue List.mem_cons_self)
      · exact absurd htail hhead
    · refine Inv.withReturned (s := s.setThread t .idle) (h.move hold rfl ?_ trivial) _
      simp [ht, ThreadState.closing]
  | loadNext a =>
    rw [ht] at hinv
    refine ⟨front, queue, h.move ?_ rfl ?_ ⟨hinv, fun _ => rfl⟩⟩
    · simp [ht, ThreadState.appending]
    · simp [ht, ThreadState.closing]
  | casHead a b =>
    dsimp only
    split_ifs with hhead hb
    · subst hb
      exact ⟨a, h.casHead_last ht hhead⟩
    · obtain ⟨queue', hnext⟩ := h.casHead_next ht hhead hb
      exact ⟨.head, queue', hnext.withReturned _⟩
    · refine ⟨front, queue, h.move ?_ rfl ?_ trivial⟩
      · simp [ht, ThreadState.appending]
      · simp [ht, ThreadState.closing]
  | casTail a =>
    dsimp only
    split_ifs with htail
    · obtain ⟨queue', hnext⟩ := h.casTail ht htail
      exact ⟨.head, queue', hnext.withReturned _⟩
    · rw [ht] at hinv
      obtain rfl : a = front := hinv
      refine ⟨a, queue, h.move ?_ rfl ?_ ⟨rfl, ?_⟩⟩
      · simp [ht, ThreadState.appending]
      · simp [ht, ThreadState.closing]
      · rintro rfl
        exact htail h.links.1
  | waitNext a =>
    dsimp only
    split_ifs with hnext
    · exact ⟨front, queue, h⟩
    · rw [ht] at hinv
      refine ⟨front, queue, h.move ?_ rfl ?_ ⟨hinv.1, rfl, hnext⟩⟩
      · simp [ht, ThreadState.appending]
      · simp [ht, ThreadState.closing]
  | storeHead a b => exact ⟨.head, queue, (h.storeHead ht).withReturned _⟩

end Writes

end Pnet.Support.InterlockedSList
