import Pnet.Lib.Chain
import Pnet.Lib.Loop

/-! The clean-up list of a thread, `support/thread.c`. A call runs under the lock of the thread,
so that nothing happens between its steps. Neither of the walks moves on to the next entry. -/
namespace Pnet.Support.ThreadCleanup
open Pnet.Lib

variable {F : Type}

structure ILThreadCleanupEntry (F : Type) where
  cleanup : F
  next : Option Nat

/-- Entries by their address; an address without one is not allocated. -/
abbrev Heap (F : Type) := Nat → Option (ILThreadCleanupEntry F)

/-- `ILMalloc`, which may be out of memory. -/
structure Allocator (F : Type) where
  malloc : Heap F → Option Nat
  fresh : ∀ heap entry, malloc heap = some entry → heap entry = none

structure ILThread (F : Type) where
  stopped : Bool
  firstCleanupEntry : Option Nat
  lastCleanupEntry : Option Nat
  heap : Heap F

namespace ILThread

def new : ILThread F := ⟨false, none, none, fun _ => none⟩

variable (thread : ILThread F)

def next (entry : Nat) : Option Nat := (thread.heap entry).bind ILThreadCleanupEntry.next

def cleanup (entry : Nat) : Option F := (thread.heap entry).map ILThreadCleanupEntry.cleanup

def setNext (entry : Nat) (next : Option Nat) : ILThread F :=
  { thread with
    heap := Function.update thread.heap entry ((thread.heap entry).map ({ · with next })) }

def free (entry : Nat) : ILThread F :=
  { thread with heap := Function.update thread.heap entry none }

end ILThread

/-- The pointers of a walk; only `ILThreadUnregisterCleanup` has `prev`. -/
structure Walk where
  prev : Option Nat
  entry : Option Nat

variable [DecidableEq F]

/-- `while(entry) { if(entry->cleanup == func) ... }`: the body has nothing else in it. -/
def walk (fuel : Nat) (thread : ILThread F) (func : F) : Option (Except Unit Walk) :=
  run (fun walk => walk.entry.all fun entry => thread.cleanup entry = some func)
    (fun walk => .ok walk) fuel ⟨none, thread.firstCleanupEntry⟩

def ilThreadRegisterCleanup (alloc : Allocator F) (fuel : Nat) (thread : ILThread F) (func : F) :
    Option (Int × ILThread F) :=
  if thread.stopped then some (-1, thread)
  else
    match walk fuel thread func with
    | some (.ok ⟨_, none⟩) =>
      match alloc.malloc thread.heap with
      | none => some (-1, thread)
      | some entry =>
        let thread := { thread with heap := Function.update thread.heap entry (some ⟨func, none⟩) }
        match thread.lastCleanupEntry with
        | some last => some (0, { thread.setNext last (some entry) with lastCleanupEntry := entry })
        | none => some (0, { thread with firstCleanupEntry := entry, lastCleanupEntry := entry })
    | some (.ok ⟨_, some _⟩) => some (-1, thread)
    | _ => none

def ilThreadUnregisterCleanup (fuel : Nat) (thread : ILThread F) (func : F) :
    Option (Int × ILThread F) :=
  if thread.stopped then some (-1, thread)
  else
    match walk fuel thread func with
    | some (.ok ⟨_, none⟩) => some (-1, thread)
    | some (.ok ⟨some prev, some entry⟩) =>
      let thread := thread.setNext prev (thread.next entry)
      let thread :=
        if thread.next prev = none then { thread with lastCleanupEntry := some prev } else thread
      some (0, thread.free entry)
    | some (.ok ⟨none, some entry⟩) =>
      -- The entry is not freed here.
      let thread := { thread with firstCleanupEntry := thread.next entry }
      let thread :=
        if thread.firstCleanupEntry = none then { thread with lastCleanupEntry := none }
        else thread
      some (0, thread)
    | _ => none

omit [DecidableEq F] in
/-- One round of the loop that ends the list, with the functions called so far. -/
def runAndFree (state : Option Nat × List F × ILThread F) :
    Except Unit (Option Nat × List F × ILThread F) :=
  match state with
  | (none, called, thread) => .ok (none, called, thread)
  | (some entry, called, thread) =>
    match thread.heap entry with
    | none => .error ()
    | some ⟨cleanup, next⟩ => .ok (next, called ++ [cleanup], thread.free entry)

/-- The functions that are called, in this order. -/
def ilThreadRunAndFreeCleanups (fuel : Nat) (thread : ILThread F) :
    Option (List F × ILThread F) :=
  match run (fun state => state.1.isNone) runAndFree fuel
      (thread.firstCleanupEntry, [], thread) with
  | some (.ok (_, called, thread)) => some (called, { thread with firstCleanupEntry := none })
  | _ => none

/-! ### Calls -/

inductive CleanupCall (F : Type) where
  | register (func : F)
  | unregister (func : F)

def CleanupCall.func : CleanupCall F → F
  | .register func => func
  | .unregister func => func

def CleanupCall.run (alloc : Allocator F) (fuel : Nat) (thread : ILThread F) :
    CleanupCall F → Option (Int × ILThread F)
  | .register func => ilThreadRegisterCleanup alloc fuel thread func
  | .unregister func => ilThreadUnregisterCleanup fuel thread func

/-- What a call should return, and what it should make of the list of functions. -/
def CleanupCall.spec (available : Bool) (funcs : List F) : CleanupCall F → Int × List F
  | .register func =>
    if func ∈ funcs then (-1, funcs)
    else if available then (0, funcs ++ [func])
    else (-1, funcs)
  | .unregister func => if func ∈ funcs then (0, funcs.erase func) else (-1, funcs)

/-! ### The walks -/

/-- The list is empty, or the function is the first of it. -/
def AtHead (thread : ILThread F) (func : F) : Prop :=
  ∀ entry, thread.firstCleanupEntry = some entry → thread.cleanup entry = some func

section Walk

variable {thread : ILThread F} {func : F} (fuel : Nat)

theorem walk_of_empty (h : thread.firstCleanupEntry = none) :
    walk fuel thread func = some (.ok ⟨none, none⟩) := by
  unfold walk
  rw [h]
  cases fuel <;> simp [run]

theorem walk_of_head {entry : Nat} (h : thread.firstCleanupEntry = some entry)
    (hfunc : thread.cleanup entry = some func) :
    walk fuel thread func = some (.ok ⟨none, some entry⟩) := by
  unfold walk
  rw [h]
  cases fuel <;> simp [run, hfunc]

/-- A walk that does not end at the first entry stays there. -/
theorem walk_endless (h : ¬ AtHead thread func) : walk fuel thread func = none := by
  unfold AtHead at h
  push Not at h
  obtain ⟨entry, hfirst, hfunc⟩ := h
  unfold walk
  rw [hfirst]
  refine run_none (fun walk : Walk => walk = ⟨none, some entry⟩) (fun walk hwalk => ?_) rfl fuel
  subst hwalk
  exact ⟨by simp [hfunc], _, rfl, rfl⟩

theorem run_endless {alloc : Allocator F} {call : CleanupCall F}
    (hrunning : ¬ thread.stopped = true) (h : ¬ AtHead thread call.func) :
    call.run alloc fuel thread = none := by
  have hwalk := walk_endless fuel h
  cases call with
  | register func =>
    rw [CleanupCall.func] at hwalk
    rw [CleanupCall.run, ilThreadRegisterCleanup, if_neg hrunning, hwalk]
  | unregister func =>
    rw [CleanupCall.func] at hwalk
    rw [CleanupCall.run, ilThreadUnregisterCleanup, if_neg hrunning, hwalk]

end Walk

/-! ### One call -/

/-- The entries of the list, which hold these functions. -/
structure Holds (thread : ILThread F) (funcs : List F) (cells : List Nat) : Prop where
  running : ¬ thread.stopped = true
  chain : Chain thread.next thread.firstCleanupEntry cells
  holds : cells.map thread.cleanup = funcs.map some
  last : thread.lastCleanupEntry = cells.getLast?

section Call

variable {thread : ILThread F} {func : F} {funcs : List F} {cells : List Nat}

omit [DecidableEq F] in
theorem Holds.new : Holds (.new : ILThread F) [] [] :=
  ⟨Bool.false_ne_true, .nil, rfl, rfl⟩

omit [DecidableEq F] in
theorem Holds.of_nil (h : Holds thread funcs []) :
    thread.firstCleanupEntry = none ∧ thread.lastCleanupEntry = none ∧ funcs = [] :=
  ⟨h.chain.of_nil, h.last, List.map_eq_nil_iff.mp h.holds.symm⟩

omit [DecidableEq F] in
theorem Holds.of_cons {entry : Nat} (h : Holds thread funcs (entry :: cells)) :
    thread.firstCleanupEntry = some entry ∧ ∃ func funcs', funcs = func :: funcs' ∧
      thread.cleanup entry = some func ∧ cells.map thread.cleanup = funcs'.map some := by
  refine ⟨h.chain.of_cons.1, ?_⟩
  have hholds := h.holds
  cases funcs with
  | nil => cases hholds
  | cons func funcs =>
    rw [List.map_cons, List.map_cons, List.cons.injEq] at hholds
    exact ⟨func, funcs, rfl, hholds⟩

omit [DecidableEq F] in
/-- The first entry of an empty list. -/
theorem holds_register (h : Holds thread funcs []) (entry : Nat) (func : F) :
    Holds { thread with
      heap := Function.update thread.heap entry (some ⟨func, none⟩)
      firstCleanupEntry := some entry, lastCleanupEntry := some entry } [func] [entry] where
  running := h.running
  chain := by
    refine .cons ?_
    simp only [ILThread.next, Function.update_self, Option.bind_some]
    exact .nil
  holds := by simp [ILThread.cleanup]
  last := rfl

omit [DecidableEq F] in
/-- The list without its first entry. -/
theorem holds_unregister {entry : Nat} (h : Holds thread (func :: funcs) (entry :: cells)) :
    Holds (if thread.next entry = none then
        { thread with firstCleanupEntry := thread.next entry, lastCleanupEntry := none }
      else { thread with firstCleanupEntry := thread.next entry }) funcs cells := by
  have hrest := h.chain.of_cons.2
  have hholds := h.holds
  rw [List.map_cons, List.map_cons, List.cons.injEq] at hholds
  split_ifs with hend
  · refine ⟨h.running, hrest, hholds.2, ?_⟩
    rw [hend] at hrest
    cases hrest
    rfl
  · refine ⟨h.running, hrest, hholds.2, ?_⟩
    cases cells with
    | nil => exact absurd hrest.of_nil hend
    | cons next cells => exact h.last.trans List.getLast?_cons_cons

/-- A call with the function at the head does what it should, without a step of its walk. -/
theorem run_spec (alloc : Allocator F) (call : CleanupCall F) (h : Holds thread funcs cells)
    (hhead : AtHead thread call.func) :
    ∃ thread' cells', (∀ fuel, call.run alloc fuel thread =
        some ((call.spec (alloc.malloc thread.heap).isSome funcs).1, thread')) ∧
      Holds thread' (call.spec (alloc.malloc thread.heap).isSome funcs).2 cells' := by
  cases cells with
  | nil =>
    obtain ⟨hfirst, hlast, rfl⟩ := h.of_nil
    cases call with
    | register func =>
      cases hmalloc : alloc.malloc thread.heap with
      | none =>
        refine ⟨thread, [], fun fuel => ?_, h⟩
        rw [CleanupCall.run, ilThreadRegisterCleanup, if_neg h.running,
          walk_of_empty fuel hfirst]
        dsimp only
        rw [hmalloc]
        rfl
      | some entry =>
        refine ⟨_, [entry], fun fuel => ?_, holds_register h entry func⟩
        rw [CleanupCall.run, ilThreadRegisterCleanup, if_neg h.running,
          walk_of_empty fuel hfirst]
        dsimp only
        rw [hmalloc]
        dsimp only
        rw [hlast]
        rfl
    | unregister func =>
      refine ⟨thread, [], fun fuel => ?_, h⟩
      rw [CleanupCall.run, ilThreadUnregisterCleanup, if_neg h.running,
        walk_of_empty fuel hfirst]
      rfl
  | cons entry cells =>
    obtain ⟨hfirst, func, funcs, rfl, hfunc, _⟩ := h.of_cons
    obtain rfl : func = call.func := Option.some.inj (hfunc.symm.trans (hhead entry hfirst))
    cases call with
    | register func =>
      refine ⟨thread, entry :: cells, fun fuel => ?_, ?_⟩
      · rw [CleanupCall.func] at hfunc
        rw [CleanupCall.run, ilThreadRegisterCleanup, if_neg h.running,
          walk_of_head fuel hfirst hfunc]
        simp [CleanupCall.spec, CleanupCall.func]
      · simpa [CleanupCall.spec, CleanupCall.func] using h
    | unregister func =>
      rw [CleanupCall.func] at hfunc
      have hspec : CleanupCall.spec (alloc.malloc thread.heap).isSome (func :: funcs)
          (.unregister func) = (0, funcs) := by simp [CleanupCall.spec]
      rw [CleanupCall.func, hspec]
      refine ⟨_, cells, fun fuel => ?_, holds_unregister h⟩
      rw [CleanupCall.run, ilThreadUnregisterCleanup, if_neg h.running,
        walk_of_head fuel hfirst hfunc]

theorem spec_nodup (available : Bool) (call : CleanupCall F) (h : funcs.Nodup) :
    (call.spec available funcs).2.Nodup := by
  cases call with
  | register func =>
    simp only [CleanupCall.spec]
    split_ifs with hmem
    · exact h
    · exact List.nodup_append_comm.mp (List.nodup_cons.mpr ⟨hmem, h⟩)
    · exact h
  | unregister func =>
    simp only [CleanupCall.spec]
    split_ifs
    · exact h.erase func
    · exact h

end Call

/-! ### The end of the thread -/

section End

variable {thread : ILThread F}

omit [DecidableEq F] in
theorem free_next {entry other : Nat} (h : other ≠ entry) :
    (thread.free entry).next other = thread.next other := by
  simp [ILThread.next, ILThread.free, Function.update_of_ne h]

omit [DecidableEq F] in
theorem free_cleanup {entry other : Nat} (h : other ≠ entry) :
    (thread.free entry).cleanup other = thread.cleanup other := by
  simp [ILThread.cleanup, ILThread.free, Function.update_of_ne h]

omit [DecidableEq F] in
theorem runAndFree_chain {start : Option Nat} {cells : List Nat} {funcs : List F}
    (hchain : Chain thread.next start cells)
    (hholds : cells.map thread.cleanup = funcs.map some) (called : List F) :
    ∃ thread', run (fun state => state.1.isNone) runAndFree cells.length
      (start, called, thread) = some (.ok (none, called ++ funcs, thread')) := by
  induction cells generalizing thread start funcs called with
  | nil =>
    obtain rfl := hchain.of_nil
    obtain rfl := List.map_eq_nil_iff.mp hholds.symm
    exact ⟨thread, by simp [run]⟩
  | cons entry cells ih =>
    have hnodup := List.nodup_cons.mp hchain.nodup
    obtain ⟨rfl, hrest⟩ := hchain.of_cons
    cases funcs with
    | nil => cases hholds
    | cons func funcs =>
      rw [List.map_cons, List.map_cons, List.cons.injEq] at hholds
      obtain ⟨⟨cleanup, next⟩, hentry, hfunc⟩ := Option.map_eq_some_iff.mp hholds.1
      obtain rfl : cleanup = func := hfunc
      have hne : ∀ other ∈ cells, other ≠ entry := fun other hmem heq => hnodup.1 (heq ▸ hmem)
      have hfreed : Chain (thread.free entry).next (thread.next entry) cells :=
        hrest.congr fun other hmem => free_next (hne other hmem)
      have hkept : cells.map (thread.free entry).cleanup = funcs.map some := by
        rw [← hholds.2]
        exact List.map_congr_left fun other hmem => free_cleanup (hne other hmem)
      obtain ⟨thread', hrun⟩ := ih hfreed hkept (called ++ [cleanup])
      have hnext : thread.next entry = next := by rw [ILThread.next, hentry]; rfl
      rw [hnext] at hrun
      refine ⟨thread', ?_⟩
      simp only [List.length_cons, run, runAndFree, hentry, Option.isNone_some,
        Bool.false_eq_true, ↓reduceIte]
      rw [hrun, List.append_assoc]
      rfl

omit [DecidableEq F] in
theorem Holds.ends {funcs : List F} {cells : List Nat} (h : Holds thread funcs cells) :
    ∃ fuel thread', ilThreadRunAndFreeCleanups fuel thread = some (funcs, thread') := by
  obtain ⟨thread', hrun⟩ := runAndFree_chain h.chain h.holds []
  refine ⟨cells.length, { thread' with firstCleanupEntry := none }, ?_⟩
  rw [ilThreadRunAndFreeCleanups, hrun]
  rfl

end End

/-! ### Any sequence of calls -/

/-- The list holds these functions, each once, and each of them is called once when the thread
ends. -/
structure Kept (thread : ILThread F) (funcs : List F) : Prop where
  holds : ∃ cells, Holds thread funcs cells
  once : funcs.Nodup
  ends : ∃ fuel thread', ilThreadRunAndFreeCleanups fuel thread = some (funcs, thread')

/-- Every call of the sequence terminates with the right result, and the list is right at all
times. -/
def Right (alloc : Allocator F) : List (CleanupCall F) → ILThread F → List F → Prop
  | [], thread, funcs => Kept thread funcs
  | call :: calls, thread, funcs => Kept thread funcs ∧
      ∃ fuel thread', call.run alloc fuel thread =
          some ((call.spec (alloc.malloc thread.heap).isSome funcs).1, thread') ∧
        Right alloc calls thread' (call.spec (alloc.malloc thread.heap).isSome funcs).2

/-- Every call finds the list empty or its function at the head. -/
def Meets (alloc : Allocator F) : List (CleanupCall F) → ILThread F → Prop
  | [], _ => True
  | call :: calls, thread => AtHead thread call.func ∧
      ∀ fuel code thread', call.run alloc fuel thread = some (code, thread') →
        Meets alloc calls thread'

theorem right_iff_meets (alloc : Allocator F) (calls : List (CleanupCall F)) {thread : ILThread F}
    {funcs : List F} {cells : List Nat} (h : Holds thread funcs cells) (honce : funcs.Nodup) :
    Right alloc calls thread funcs ↔ Meets alloc calls thread := by
  induction calls generalizing thread funcs cells with
  | nil => exact iff_of_true ⟨⟨cells, h⟩, honce, h.ends⟩ trivial
  | cons call calls ih =>
    have honce' := spec_nodup (alloc.malloc thread.heap).isSome call honce
    constructor
    · rintro ⟨_, fuel, thread', hrun, hright⟩
      have hhead : AtHead thread call.func := by
        by_contra hhead
        rw [run_endless fuel h.running hhead] at hrun
        cases hrun
      obtain ⟨thread1, cells1, hruns, hholds⟩ := run_spec alloc call h hhead
      have hsame : thread1 = thread' := by
        rw [hruns fuel] at hrun
        exact congrArg Prod.snd (Option.some.inj hrun)
      refine ⟨hhead, fun fuel' code thread2 hrun' => ?_⟩
      rw [hruns fuel'] at hrun'
      obtain rfl : thread1 = thread2 := congrArg Prod.snd (Option.some.inj hrun')
      subst hsame
      exact (ih hholds honce').mp hright
    · rintro ⟨hhead, hmeets⟩
      obtain ⟨thread', cells', hruns, hholds⟩ := run_spec alloc call h hhead
      exact ⟨⟨⟨cells, h⟩, honce, h.ends⟩, 0, thread', hruns 0,
        (ih hholds honce').mpr (hmeets 0 _ thread' (hruns 0))⟩

/-- A sequence of calls on a new thread goes right exactly when every call finds the list empty or
its function at the head of it. -/
theorem cleanups_iff (alloc : Allocator F) (calls : List (CleanupCall F)) :
    Right alloc calls .new [] ↔ Meets alloc calls .new :=
  right_iff_meets alloc calls .new List.nodup_nil

omit [DecidableEq F] in
/-- An allocator with room for one entry at a time. -/
def oneEntry (F : Type) : Allocator F where
  malloc heap := if (heap 0).isNone then some 0 else none
  fresh heap entry h := by
    split_ifs at h with hfree
    cases h
    exact Option.isNone_iff_eq_none.mp hfree

/-- The second of two functions cannot be registered: the walk stays at the first. -/
theorem not_right_two : ¬ ∀ calls : List (CleanupCall Bool), Right (oneEntry Bool) calls .new [] := by
  intro h
  obtain ⟨hhead, hrest⟩ := (right_iff_meets (oneEntry Bool) [.register true, .register false] .new
    List.nodup_nil).mp (h _)
  obtain ⟨thread', cells', hruns, hholds⟩ :=
    run_spec (oneEntry Bool) (.register true) .new hhead
  have hsecond := (hrest 0 _ thread' (hruns 0)).1
  cases cells' with
  | nil => cases hholds.of_nil.2.2
  | cons entry cells' =>
    obtain ⟨hfirst, func, funcs, hfuncs, hfunc, _⟩ := hholds.of_cons
    obtain rfl : true = func := (List.cons.inj hfuncs).1
    rw [hsecond entry hfirst] at hfunc
    cases hfunc

end Pnet.Support.ThreadCleanup
