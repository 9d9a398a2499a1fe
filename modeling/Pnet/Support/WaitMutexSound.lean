import Pnet.Lib.Loop
import Pnet.Support.WaitMutex

/-! When the table of a thread has exactly the mutexes that it owns. -/
namespace Pnet.Support.WaitMutex
open Pnet.Lib

variable {size : PointerSize}

/-! ### The table -/

/-- The first bucket of a mutex is one of the table. -/
def Fits (mutex : Address size) : Prop := 0 ≤ (hash mutex).tmod 13

instance (mutex : Address size) : Decidable (Fits mutex) := inferInstanceAs (Decidable (0 ≤ _))

/-- A table that has not grown; the count is that of its entries. -/
structure ILWakeup.Small (wakeup : ILWakeup size) : Prop where
  length_cells : wakeup.cells.length = 13
  count_eq : wakeup.ownedMutexesCount = wakeup.cells.countP fun cell => cell != 0

theorem firstBucket_of_fits {mutex : Address size} (h : Fits mutex) :
    ∃ i < 13, firstBucket mutex 13 = .ok i := by
  refine ⟨((hash mutex).tmod 13).toNat, ?_, ?_⟩
  · have hlt := Int.tmod_lt_of_pos (hash mutex) (b := 13) (by decide)
    omega
  · rw [firstBucket]
    exact if_neg (not_lt.2 h)

theorem getD_eq_getElem {cells : List (Address size)} {j : Nat} (hj : j < cells.length) :
    cells.getD j 0 = cells[j] := by
  rw [List.getD_eq_getElem?_getD, List.getElem?_eq_getElem hj, Option.getD_some]

section Set

variable {cells : List (Address size)} {j : Nat} (hj : j < cells.length)
include hj

theorem countP_set_mutex {mutex : Address size} (hzero : cells[j] = 0) (hne : mutex ≠ 0) :
    (cells.set j mutex).countP (fun cell => cell != 0) =
      cells.countP (fun cell => cell != 0) + 1 := by
  rw [List.countP_set hj, hzero, bne_self_eq_false, bne_iff_ne.2 hne]
  rfl

theorem count_set_mutex {mutex other : Address size} (hzero : cells[j] = 0) (hother : other ≠ 0) :
    (cells.set j mutex).count other = cells.count other + if other = mutex then 1 else 0 := by
  rw [List.count_set hj, hzero, beq_eq_false_iff_ne.2 hother.symm,
    if_congr (eq_comm (a := other)) rfl rfl]
  simp only [Bool.false_eq_true, ↓reduceIte, Nat.sub_zero, beq_iff_eq]

theorem countP_set_zero (hne : cells[j] ≠ 0) :
    (cells.set j 0).countP (fun cell => cell != 0) =
      cells.countP (fun cell => cell != 0) - 1 := by
  rw [List.countP_set hj, bne_self_eq_false, bne_iff_ne.2 hne]
  rfl

theorem count_set_zero {other : Address size} (hother : other ≠ 0) :
    (cells.set j 0).count other = cells.count other - if other = cells[j] then 1 else 0 := by
  rw [List.count_set hj, beq_eq_false_iff_ne.2 hother.symm,
    if_congr (eq_comm (a := other)) rfl rfl]
  simp only [Bool.false_eq_true, ↓reduceIte, Nat.add_zero, beq_iff_eq]

end Set

/-- A table that is not full has an empty cell. -/
theorem exists_emptyBucket {mutex : Address size} {cells : List (Address size)}
    (hfits : Fits mutex) (hlen : cells.length = 13)
    (hfull : cells.countP (fun cell => cell != 0) < 13) :
    ∃ j, ∃ hj : j < cells.length, cells[j] = 0 ∧ emptyBucket mutex cells = .ok j := by
  obtain ⟨i, hi, hfirst⟩ := firstBucket_of_fits hfits
  have hempty : ∃ cell ∈ cells, cell = 0 := by
    by_contra hne
    push Not at hne
    have hall : cells.countP (fun cell => cell != 0) = cells.length :=
      List.countP_eq_length.2 fun cell hcell => bne_iff_ne.2 (hne cell hcell)
    omega
  obtain ⟨cell, hcell, rfl⟩ := hempty
  obtain ⟨k, hk, hzero⟩ := List.getElem_of_mem hcell
  obtain ⟨j, hprobe⟩ := exists_probe (p := fun j => cells.getD j 0 == 0) (hi.trans_eq hlen.symm) hk
    (by rw [getD_eq_getElem hk, hzero]; exact beq_self_eq_true _)
  obtain ⟨hj, hjzero⟩ := probe_spec (hi.trans_eq hlen.symm) hprobe
  rw [getD_eq_getElem hj, beq_iff_eq] at hjzero
  refine ⟨j, hj, hjzero, ?_⟩
  rw [emptyBucket, hlen, hfirst, ← hlen]
  simp only [ok_bind, hprobe]

/-- Adding a mutex to a table that has room. -/
theorem addMutexToWakeup_spec {mutex : Address size} {wakeup : ILWakeup size}
    (hsmall : wakeup.Small) (hne : mutex ≠ 0) (hfits : Fits mutex)
    (hroom : wakeup.ownedMutexesCount < 13) :
    ∃ wakeup', addMutexToWakeup mutex wakeup = .ok wakeup' ∧ wakeup'.Small ∧
      ∀ other, other ≠ 0 → wakeup'.cells.count other =
        wakeup.cells.count other + if other = mutex then 1 else 0 := by
  obtain ⟨hlen, hcount⟩ := hsmall
  obtain ⟨j, hj, hzero, hbucket⟩ := exists_emptyBucket hfits hlen (hcount ▸ hroom)
  refine ⟨⟨wakeup.ownedMutexesCount + 1, some (wakeup.cells.set j mutex)⟩, ?_, ⟨?_, ?_⟩, ?_⟩
  · rw [addMutexToWakeup, if_neg (by omega), ILWakeup.put, hbucket]
    rfl
  · rw [← hlen]
    exact List.length_set
  · exact (congrArg (· + 1) hcount).trans (countP_set_mutex hj hzero hne).symm
  · exact fun other hother => count_set_mutex hj hzero hother

/-- A mutex of the table is found in it. -/
theorem exists_probe_of_mem {mutex : Address size} {cells : List (Address size)} {i : Nat}
    (hi : i < cells.length) (hmem : mutex ∈ cells) :
    ∃ j, probe (fun j => cells.getD j 0 == mutex) cells.length cells.length i = some j := by
  obtain ⟨k, hk, hkmem⟩ := List.getElem_of_mem hmem
  apply exists_probe hi hk
  rw [getD_eq_getElem hk, hkmem]
  exact beq_self_eq_true _

theorem count_replicate_zero {mutex : Address size} (hne : mutex ≠ 0) :
    (List.replicate 13 0).count mutex = 0 := by
  rw [List.count_eq_zero]
  intro hmem
  exact hne (List.eq_of_mem_replicate hmem)

/-- Removing a mutex, which need not be in the table. -/
theorem removeMutexFromWakeup_spec {mutex : Address size} {wakeup : ILWakeup size}
    (hsmall : wakeup.Small) (hne : mutex ≠ 0) (hfits : wakeup.ownedMutexes = none ∨ Fits mutex) :
    ∃ wakeup', removeMutexFromWakeup mutex wakeup = .ok wakeup' ∧ wakeup'.Small ∧
      ∀ other, other ≠ 0 → wakeup'.cells.count other =
        wakeup.cells.count other - if other = mutex then 1 else 0 := by
  cases hcells : wakeup.ownedMutexes with
  | none =>
    refine ⟨wakeup, by rw [removeMutexFromWakeup, hcells], hsmall, fun other hother => ?_⟩
    rw [ILWakeup.cells, hcells, Option.getD_none, count_replicate_zero hother, Nat.zero_sub]
  | some cells =>
    obtain ⟨hlen, hcount⟩ := hsmall
    have hcells' : wakeup.cells = cells := by rw [ILWakeup.cells, hcells, Option.getD_some]
    rw [hcells'] at hlen hcount ⊢
    rw [hcells] at hfits
    obtain ⟨i, hi, hfirst⟩ := firstBucket_of_fits (hfits.resolve_left (Option.some_ne_none _))
    rw [removeMutexFromWakeup, hcells]
    simp only [hlen, hfirst, ok_bind]
    cases hprobe : probe (fun j => cells.getD j 0 == mutex) 13 13 i with
    | none =>
      refine ⟨wakeup, rfl, ⟨by rw [hcells', hlen], by rw [hcells', hcount]⟩, fun other _ => ?_⟩
      rw [hcells']
      split_ifs with hother
      · have habsent : cells.count other = 0 := by
          rw [List.count_eq_zero, hother]
          intro hmem
          obtain ⟨j, hj⟩ := exists_probe_of_mem (hi.trans_eq hlen.symm) hmem
          rw [hlen, hprobe] at hj
          cases hj
        rw [habsent]
      · rw [Nat.sub_zero]
    | some j =>
      obtain ⟨hj, hjmem⟩ := probe_spec hi hprobe
      rw [← hlen] at hj
      rw [getD_eq_getElem hj, beq_iff_eq] at hjmem
      refine ⟨⟨wakeup.ownedMutexesCount - 1, some (cells.set j 0)⟩, rfl, ⟨?_, ?_⟩, ?_⟩
      · rw [← hlen]
        exact List.length_set
      · exact (congrArg (· - 1) hcount).trans (countP_set_zero hj (hjmem ▸ hne)).symm
      · intro other hother
        rw [← hjmem]
        exact count_set_zero hj hother

/-! ### Mutexes -/

variable {T N : Type} [DecidableEq N]

namespace Mutexes

/-- Whether the thread is the owner of a mutex. -/
def owns (s : Mutexes T N size) (mutex : Address size) : Bool :=
  match s.mutex mutex with
  | some ⟨some .self, _⟩ => true
  | _ => false

/-- The table has the mutexes that the thread owns, each once, and no other. -/
def Exact (s : Mutexes T N size) : Prop :=
  ∀ mutex, mutex ≠ 0 → s.wakeup.cells.count mutex = if s.owns mutex then 1 else 0

/-- The invariant of the calls. -/
structure Inv (s : Mutexes T N size) : Prop where
  exact : s.Exact
  small : s.wakeup.Small
  fits : ∀ mutex, s.owns mutex = true → mutex ≠ 0 ∧ Fits mutex
  present : ∀ mutex, s.mutex mutex ≠ none → mutex ≠ 0

section Ownership

variable {s : Mutexes T N size} {mutex : Address size}

omit [DecidableEq N] in
@[simp] theorem mutex_setMutex_self (value : ILWaitMutex T) :
    (s.setMutex mutex value).mutex mutex = some value :=
  Function.update_self ..

omit [DecidableEq N] in
theorem owns_setMutex (value : ILWaitMutex T) (other : Address size) :
    (s.setMutex mutex value).owns other =
      if other = mutex then (match value.owner with | some .self => true | _ => false)
      else s.owns other := by
  unfold owns setMutex
  by_cases h : other = mutex
  · subst h
    simp only [Function.update_self, ↓reduceIte]
    obtain ⟨_ | _ | _, count⟩ := value <;> rfl
  · simp only [Function.update_of_ne h, h, ↓reduceIte]

omit [DecidableEq N] in
theorem owns_eq_true : s.owns mutex = true ↔ ∃ count, s.mutex mutex = some ⟨some .self, count⟩ := by
  unfold owns
  constructor
  · intro h
    split at h
    · next count hmutex => exact ⟨count, hmutex⟩
    · cases h
  · rintro ⟨count, hmutex⟩
    rw [hmutex]

namespace Inv

/-- What does not change the owners or the table. -/
theorem setMutex (h : s.Inv) (hne : mutex ≠ 0) {value : ILWaitMutex T}
    (howner : (match value.owner with | some .self => true | _ => false) = s.owns mutex) :
    (s.setMutex mutex value).Inv := by
  have howns (other : Address size) : (s.setMutex mutex value).owns other = s.owns other := by
    rw [owns_setMutex, howner]
    split_ifs with heq
    · rw [heq]
    · rfl
  refine ⟨fun other hother => ?_, h.small, fun other hown => h.fits other (howns other ▸ hown),
    fun other hother => ?_⟩
  · rw [howns]
    exact h.exact other hother
  · by_cases heq : other = mutex
    · exact heq ▸ hne
    · exact h.present other (by simpa [Mutexes.setMutex, Function.update_of_ne heq] using hother)

/-- The thread becomes the owner of a mutex that it did not own. -/
theorem own (h : s.Inv) (hne : mutex ≠ 0) (hfits : Fits mutex)
    (hroom : s.wakeup.ownedMutexesCount < 13) (hnot : s.owns mutex = false) :
    ∃ s', s.own mutex = .ok s' ∧ s'.Inv ∧ s'.owns mutex = true := by
  obtain ⟨wakeup', hadd, hsmall, hcount⟩ := addMutexToWakeup_spec h.small hne hfits hroom
  have howns (other : Address size) :
      ({ s.setMutex mutex ⟨some .self, 1⟩ with wakeup := wakeup' } : Mutexes T N size).owns other =
        if other = mutex then true else s.owns other := owns_setMutex _ other
  refine ⟨{ s.setMutex mutex ⟨some .self, 1⟩ with wakeup := wakeup' }, ?_, ⟨?_, hsmall, ?_, ?_⟩, ?_⟩
  · rw [Mutexes.own, hadd, ok_bind]
  · intro other hother
    rw [howns, hcount other hother, h.exact other hother]
    by_cases heq : other = mutex
    · subst heq
      simp only [hnot, Bool.false_eq_true, ↓reduceIte]
    · rw [if_neg heq, if_neg heq, Nat.add_zero]
  · intro other hown
    rw [howns] at hown
    split_ifs at hown with heq
    · exact heq ▸ ⟨hne, hfits⟩
    · exact h.fits other hown
  · intro other hother
    by_cases heq : other = mutex
    · exact heq ▸ hne
    · exact h.present other (by simpa [Mutexes.setMutex, Function.update_of_ne heq] using hother)
  · rw [howns, if_pos rfl]

/-- The mutex leaves the table, if it was in it. -/
theorem handOver (h : s.Inv) (hne : mutex ≠ 0)
    (hfits : s.wakeup.ownedMutexes = none ∨ Fits mutex) (next : Option T) :
    ∃ s', s.handOver mutex next = .ok s' ∧ s'.Inv := by
  obtain ⟨wakeup', hremove, hsmall, hcount⟩ := removeMutexFromWakeup_spec h.small hne hfits
  have howns (other : Address size) :
      ({ s.setMutex mutex ⟨next.map .other, if next.isSome then 1 else 0⟩ with
          wakeup := wakeup' } : Mutexes T N size).owns other =
        if other = mutex then false else s.owns other := by
    refine (owns_setMutex _ other).trans ?_
    cases next <;> rfl
  refine ⟨{ s.setMutex mutex ⟨next.map .other, if next.isSome then 1 else 0⟩ with
    wakeup := wakeup' }, ?_, ⟨?_, hsmall, ?_, ?_⟩⟩
  · rw [Mutexes.handOver, hremove, ok_bind]
  · intro other hother
    rw [howns, hcount other hother, h.exact other hother]
    by_cases heq : other = mutex
    · rw [if_pos heq, if_pos heq]
      split <;> rfl
    · rw [if_neg heq, if_neg heq, Nat.sub_zero]
  · intro other hown
    rw [howns] at hown
    split_ifs at hown with heq
    exact h.fits other hown
  · intro other hother
    by_cases heq : other = mutex
    · exact heq ▸ hne
    · exact h.present other (by simpa [Mutexes.setMutex, Function.update_of_ne heq] using hother)

theorem mutexUnregister (h : s.Inv) (hown : s.owns mutex = true) (next : Option T) :
    ∃ s', s.mutexUnregister mutex true next = .ok s' ∧ s'.Inv := by
  obtain ⟨hne, hfits⟩ := h.fits mutex hown
  obtain ⟨count, hmutex⟩ := owns_eq_true.1 hown
  simp only [Mutexes.mutexUnregister, hmutex, ↓reduceIte]
  split_ifs with hcount
  · exact h.handOver hne (.inr hfits) next
  · exact ⟨_, rfl, h.setMutex hne hown.symm⟩

theorem leaveWaitHandle (h : s.Inv) (hown : s.owns mutex = true) (outcome : WaitOutcome T) :
    ∃ s', s.leaveWaitHandle mutex outcome = .ok s' ∧ s'.Inv := by
  unfold Mutexes.leaveWaitHandle
  split_ifs with hinterrupted
  · exact h.mutexUnregister hown outcome.next
  · exact ⟨s, rfl, h⟩

end Inv

end Ownership

/-- The first bucket of a mutex is in the table, and the search from there finds the mutex. -/
def Finds (s : Mutexes T N size) (mutex : Address size) : Prop :=
  ∃ i < s.wakeup.cells.length, firstBucket mutex s.wakeup.cells.length = .ok i ∧
    ∃ j, probe (fun j => s.wakeup.cells.getD j 0 == mutex) s.wakeup.cells.length
      s.wakeup.cells.length i = some j

structure Sound (s : Mutexes T N size) : Prop where
  exact : s.Exact
  finds : ∀ mutex, s.owns mutex = true → s.Finds mutex

omit [DecidableEq N] in
theorem Inv.sound {s : Mutexes T N size} (h : s.Inv) : s.Sound := by
  refine ⟨h.exact, fun mutex hown => ?_⟩
  obtain ⟨hne, hfits⟩ := h.fits mutex hown
  obtain ⟨i, hi, hfirst⟩ := firstBucket_of_fits hfits
  have hlen := h.small.length_cells
  have hmem : mutex ∈ s.wakeup.cells := by
    apply List.count_pos_iff.1
    rw [h.exact mutex hne, if_pos hown]
    exact Nat.one_pos
  exact ⟨i, hi.trans_eq hlen.symm, hlen ▸ hfirst, exists_probe_of_mem (hi.trans_eq hlen.symm) hmem⟩

/-! ### Calls -/

/-- The thread can put a mutex in its table. -/
def Room (s : Mutexes T N size) (mutex : Address size) : Prop :=
  Fits mutex ∧ s.wakeup.ownedMutexesCount < 13

/-- A mutex that the thread gets by waiting fits in its table. One that is given to it after it has
stopped waiting need only fit when there is a table. -/
def FineWait (s : Mutexes T N size) (mutex : Address size) (outcome : WaitOutcome T) : Prop :=
  match s.mutex mutex, outcome.entered with
  | some ⟨none, _⟩, true => s.Room mutex
  | some ⟨some (.other _), _⟩, true =>
    match outcome.wait with
    | .granted => s.Room mutex
    | .ended true => s.wakeup.ownedMutexes = none ∨ Fits mutex
    | _ => True
  | _, _ => True

/-- A mutex whose name is used again is not asked to be owned. -/
def Fine (s : Mutexes T N size) : Call T N size → Prop
  | .create mutex initiallyOwned => initiallyOwned = true → s.Room mutex
  | .namedCreate name mutex initiallyOwned _ =>
    initiallyOwned = true → name.bind s.findName = none ∧ s.Room mutex
  | .waitOne mutex outcome => s.FineWait mutex outcome
  | _ => True

/-- A condition on each of some calls, in the state in which it is made. -/
def Along (P : Mutexes T N size → Call T N size → Prop) (s : Mutexes T N size) :
    List (Call T N size) → Prop
  | [] => True
  | call :: rest =>
    P s call ∧
      match s.call call with
      | .ok s' => Along P s' rest
      | .error _ => True

/-- The calls all return, and the table is sound before and after each. -/
def StaySound (s : Mutexes T N size) : List (Call T N size) → Prop
  | [] => s.Sound
  | call :: rest =>
    s.Sound ∧
      match s.call call with
      | .ok s' => StaySound s' rest
      | .error _ => False

section Calls

variable {s : Mutexes T N size} {mutex : Address size}

theorem Inv.ilWaitMutexCreate (h : s.Inv) (hne : mutex ≠ 0) (hnew : s.mutex mutex = none)
    {initiallyOwned : Bool} (hroom : initiallyOwned = true → s.Room mutex) :
    ∃ s', s.ilWaitMutexCreate mutex initiallyOwned = .ok s' ∧ s'.Inv := by
  have hnot : s.owns mutex = false := by
    unfold owns
    rw [hnew]
  cases initiallyOwned with
  | false => exact ⟨_, rfl, h.setMutex hne hnot.symm⟩
  | true =>
    obtain ⟨hfits, hcount⟩ := hroom rfl
    obtain ⟨s', hs', hinv, -⟩ := h.own hne hfits hcount hnot
    exact ⟨s', hs', hinv⟩

omit [DecidableEq N] in
theorem handOver_setMutex (value : ILWaitMutex T) (next : Option T) :
    (s.setMutex mutex value).handOver mutex next = s.handOver mutex next := by
  unfold handOver setMutex
  simp only [Function.update_idem]

/-- A wait keeps the invariant, in each way it can end. -/
theorem Inv.ilWaitOne (h : s.Inv) {outcome : WaitOutcome T}
    (hfine : s.FineWait mutex outcome) :
    ∃ acquired s', s.ilWaitOne mutex outcome = .ok (acquired, s') ∧ s'.Inv := by
  unfold FineWait at hfine
  unfold Mutexes.ilWaitOne
  rcases hmutex : s.mutex mutex with _ | ⟨_ | _ | t, count⟩
  · exact ⟨_, s, rfl, h⟩
  all_goals
    have hne := h.present mutex (by rw [hmutex]; exact Option.some_ne_none _)
    have howns : s.owns mutex = match s.mutex mutex with | some ⟨some .self, _⟩ => true | _ => false :=
      rfl
    rw [hmutex] at howns
    cases hentered : outcome.entered
    · exact ⟨_, s, rfl, h⟩
    rw [hmutex, hentered] at hfine
  · obtain ⟨s', hs', hinv, hown⟩ := h.own hne hfine.1 hfine.2 howns
    obtain ⟨s'', hs'', hinv'⟩ := hinv.leaveWaitHandle hown outcome
    exact ⟨!outcome.interrupted, s'', by simp only [hs', hs'', ok_bind], hinv'⟩
  · have hinv : (s.setMutex mutex ⟨some .self, count + 1⟩).Inv := h.setMutex hne howns.symm
    have hown : (s.setMutex mutex ⟨some .self, count + 1⟩).owns mutex = true := by
      rw [owns_setMutex, if_pos rfl]
    obtain ⟨s', hs', hinv'⟩ := hinv.leaveWaitHandle hown outcome
    exact ⟨!outcome.interrupted, s', by simp only [hs', ok_bind], hinv'⟩
  · cases hwait : outcome.wait with
    | failed => exact ⟨_, s, rfl, h⟩
    | granted =>
      rw [hwait] at hfine
      obtain ⟨s', hs', hinv, hown⟩ := h.own hne hfine.1 hfine.2 howns
      have hadd : (s.setMutex mutex ⟨some .self, 1⟩).mutexUnregister mutex false none = .ok s' := by
        rw [← hs']
        unfold Mutexes.mutexUnregister Mutexes.own
        simp only [mutex_setMutex_self, Bool.false_eq_true, ↓reduceIte]
        rfl
      obtain ⟨s'', hs'', hinv'⟩ := hinv.leaveWaitHandle hown outcome
      exact ⟨!outcome.interrupted, s'', by simp only [hadd, hs'', ok_bind], hinv'⟩
    | ended given =>
      cases given with
      | false =>
        have hleft : s.mutexUnregister mutex true outcome.next = .ok s := by
          unfold Mutexes.mutexUnregister
          rw [hmutex]
        refine ⟨false, s, ?_, h⟩
        simp only [Bool.false_eq_true, ↓reduceIte, hleft, ok_bind]
      | true =>
        rw [hwait] at hfine
        obtain ⟨s', hs', hinv⟩ := h.handOver hne hfine outcome.next
        have hleft : (s.setMutex mutex ⟨some .self, 1⟩).mutexUnregister mutex true outcome.next =
            .ok s' := by
          rw [← hs', ← handOver_setMutex ⟨some .self, 1⟩]
          unfold Mutexes.mutexUnregister
          simp only [mutex_setMutex_self, ↓reduceIte, Nat.sub_self]
        refine ⟨false, s', ?_, hinv⟩
        simp only [↓reduceIte, hleft, ok_bind]

theorem Inv.ilWaitMutexRelease (h : s.Inv) (mutex : Address size) (next : Option T) :
    ∃ result s', s.ilWaitMutexRelease mutex next = .ok (result, s') ∧ s'.Inv := by
  unfold Mutexes.ilWaitMutexRelease
  split
  · next count hmutex =>
    have hown : s.owns mutex = true := owns_eq_true.2 ⟨count, hmutex⟩
    obtain ⟨hne, hfits⟩ := h.fits mutex hown
    split_ifs with hcount
    · obtain ⟨s', hs', hinv⟩ := h.handOver hne (.inr hfits) next
      exact ⟨.success, s', by simp only [hs', ok_bind], hinv⟩
    · exact ⟨.stillOwns, _, rfl, h.setMutex hne hown.symm⟩
  · exact ⟨.fail, s, rfl, h⟩

/-- What one call preserves. -/
theorem Inv.call (h : s.Inv) {call : Call T N size} (hpossible : s.Possible call)
    (hfine : s.Fine call) : ∃ s', s.call call = .ok s' ∧ s'.Inv := by
  cases call with
  | create mutex initiallyOwned => exact h.ilWaitMutexCreate hpossible.1 hpossible.2 hfine
  | namedCreate name mutex initiallyOwned outcome =>
    obtain ⟨s', hs', hinv⟩ := h.ilWaitMutexCreate hpossible.1 hpossible.2 fun howned =>
      (hfine howned).2
    unfold Mutexes.call Mutexes.ilWaitMutexNamedCreate
    cases name with
    | none => exact ⟨s', by simp only [hs', ok_bind], hinv⟩
    | some name =>
      cases hname : s.findName name with
      | none =>
        exact ⟨{ s' with nameList := (name, mutex) :: s'.nameList },
          by simp only [hname, hs', ok_bind], ⟨hinv.exact, hinv.small, hinv.fits, hinv.present⟩⟩
      | some found =>
        cases initiallyOwned with
        | false => exact ⟨s, by simp only [hname, Bool.false_eq_true, ↓reduceIte, ok_bind], h⟩
        | true =>
          have habsent := (hfine rfl).1
          rw [Option.bind_some, hname] at habsent
          cases habsent
  | waitOne mutex outcome =>
    obtain ⟨acquired, s', hs', hinv⟩ := h.ilWaitOne hfine
    exact ⟨s', by simp only [Mutexes.call, hs', ok_bind], hinv⟩
  | release mutex next =>
    obtain ⟨result, s', hs', hinv⟩ := h.ilWaitMutexRelease mutex next
    exact ⟨s', by simp only [Mutexes.call, hs', ok_bind], hinv⟩
  | others mutex owner count =>
    simp only [Mutexes.call]
    split
    · exact ⟨s, rfl, h⟩
    · exact ⟨s, rfl, h⟩
    · next value hnotself hmutex =>
      have hne := h.present mutex (by rw [hmutex]; exact Option.some_ne_none _)
      have hnot : s.owns mutex = false := by
        rw [← Bool.not_eq_true, owns_eq_true]
        rintro ⟨count, hself⟩
        rw [hmutex] at hself
        cases hself
        exact hnotself count rfl
      refine ⟨_, rfl, h.setMutex hne ?_⟩
      rw [hnot]
      cases owner <;> rfl

/-- What the calls of a run preserve. -/
theorem Inv.staySound (h : s.Inv) {calls : List (Call T N size)}
    (hpossible : Along Possible s calls) (hfine : Along Fine s calls) : s.StaySound calls := by
  induction calls generalizing s with
  | nil => exact h.sound
  | cons call rest ih =>
    obtain ⟨s', hs', hinv⟩ := h.call hpossible.1 hfine.1
    have hpossible' := hpossible.2
    have hfine' := hfine.2
    simp only [StaySound, hs'] at hpossible' hfine' ⊢
    exact ⟨h.sound, ih hinv hpossible' hfine'⟩

end Calls

omit [DecidableEq N] in
theorem inv_start : (start : Mutexes T N size).Inv where
  exact mutex hne := (count_replicate_zero hne).trans (if_neg Bool.false_ne_true).symm
  small := by
    constructor
    · rfl
    · refine (List.countP_eq_zero.2 fun cell hcell => ?_).symm
      rw [List.eq_of_mem_replicate hcell, bne_self_eq_false]
      exact Bool.false_ne_true
  fits mutex hown := by
    cases hown
  present mutex hmutex := absurd rfl hmutex

/-- A mutex that is owned twice and released, one that another thread gives to this one, and a new
name. -/
def ownedTwice : List (Call Nat Nat .eight) :=
  [.create 16 true, .waitOne 16 {}, .release 16 none, .release 16 none,
    .namedCreate (some 1) 32 true {}, .others 16 (some 3) 1, .waitOne 16 { wait := .granted },
    .release 16 (some 2)]

end Mutexes

/-! ### Growth -/

end Pnet.Support.WaitMutex
