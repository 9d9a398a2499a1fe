import Pnet.Cscc.BFNodeRuns

/-! The code that is put out for a program does what the program does, as long as the head stays
on the tape. What it takes: no run of moves goes as far as 2^16 cells, for the count of a run is
cut down to 16 bits; no cell above 127 is written, for cells are loaded with their sign; and the
program is more than loops, for the test of a loop does not raise the height of the stack. -/
namespace Pnet.Cscc.BF
open Pnet.Lib

/-! ### Programs -/

section Simulation

variable {size : MaxArraySize} {method : BFMethod}

/-- The highest stack that the generator has for a list of nodes. -/
def maxHeight : Body BFNode → Int
  | .nil => 0
  | .cons node rest => max node.maxHeight (maxHeight rest)
  | .loop body rest => max (maxHeight body) (maxHeight rest)

/-- The program is at `s` and the code still at `t`, before the node that is not put out yet. The
moves of a node are those of its run. -/
def Pending (size : MaxArraySize) (program : Body BFCommand) (t s : BFState) :
    Option BFNode → Prop
  | none => s = t ∧ (t.moved = 0 ∨ ∃ body rest, program = .loop body rest)
  | some node => node.exec size t = some s ∧ ∀ count, node = .move count → t.moved = 0

/-- Everything in a run has fitted, a run of moves at its end included. -/
def Fitted (outcome : Outcome BFState) : Prop := outcome.Holds fun s => s.flush.fits = true

/-- Where the code gets with a run. -/
def Reaches (size : MaxArraySize) (method : BFMethod) (fuel : Nat) (m : BFMachine) (stop : Nat) :
    Outcome BFState → Prop
  | .done s => ∃ k m', steps method.step k m = some m' ∧ Ready size s m' ∧ m'.pc = stop
  | .running s => ∃ k m', fuel ≤ k ∧ steps method.step k m = some m' ∧ Ready size s m'
  | .stuck => True

theorem reaches_after {fuel fuel' k stop : Nat} {m m' : BFMachine} {outcome : Outcome BFState}
    (h : steps method.step k m = some m') (hfuel : fuel' ≤ k + fuel)
    (hreaches : Reaches size method fuel m' stop outcome) :
    Reaches size method fuel' m stop outcome := by
  cases outcome with
  | stuck => trivial
  | done s =>
    obtain ⟨l, m'', hsteps, hready⟩ := hreaches
    exact ⟨k + l, m'', steps_add h hsteps, hready⟩
  | running s =>
    obtain ⟨l, m'', hle, hsteps, hready⟩ := hreaches
    exact ⟨k + l, m'', by omega, steps_add h hsteps, hready⟩

/-! What has not fitted does not fit later. -/

theorem not_fits_exec (command : BFCommand) (s s' : BFState)
    (hexec : command.exec size s = some s') (h : s.fits = false) : s'.fits = false := by
  have hflush : s.flush.fits = false := by rw [BFState.flush, h, Bool.false_and]
  cases command with
  | plus | minus =>
    cases hexec
    exact hflush
  | next | prev =>
    obtain ⟨-, hexec⟩ := Option.ite_none_right_eq_some.1 hexec
    cases hexec
    exact h
  | read =>
    cases hexec
    unfold BFState.read
    split <;> exact hflush
  | write =>
    cases hexec
    exact (congrArg (· && _) hflush).trans (Bool.false_and _)

theorem not_fits_flush (s : BFState) (h : s.fits = false) : s.flush.fits = false := by
  rw [BFState.flush, h, Bool.false_and]

/-- The code of a program, from a node on that is not put out yet. -/
def codeOf (nextLabel : Nat) (last : Option BFNode) (program : Body BFCommand) : List BFInsn :=
  insns (genDiscard nextLabel (bfOptimize last (program.map BFCommand.create))).1

/-- The method has the code of a program, and a stack that is high enough for it. -/
structure Placed (method : BFMethod) (before behind : List BFInsn) (nextLabel : Nat)
    (last : Option BFNode) (program : Body BFCommand) : Prop where
  code : method.code = before ++ (codeOf nextLabel last program ++ behind)
  maxHeight : maxHeight (bfOptimize last (program.map BFCommand.create)) ≤ method.maxStack
  loops : program.hasLoop = true → 2 ≤ method.maxStack

/-- What a run needs of the runs behind the test of a loop. -/
structure Again (size : MaxArraySize) (method : BFMethod) (fuel : Nat)
    (again : Body BFCommand → BFState → Outcome BFState) : Prop where
  not_fits : ∀ program s, s.fits = false → (again program s).Holds fun s => s.fits = false
  not_fits_loop : ∀ body rest s, s.flush.fits = false →
    (again (.loop body rest) s).Holds fun s => s.flush.fits = false
  reaches : ∀ program nextLabel before behind s m,
    Placed method before behind nextLabel none program → Ready size s m →
    m.pc = before.length → (s.moved = 0 ∨ ∃ body rest, program = .loop body rest) →
    Fitted (again program s) →
    Reaches size method fuel m (before ++ codeOf nextLabel none program).length (again program s)

theorem moved_of_exec {node : BFNode} {t s : BFState} (hexec : node.exec size t = some s)
    (hnode : ∀ count, node ≠ .move count) : s.moved = 0 := by
  cases node with
  | move count => exact absurd rfl (hnode count)
  | arith | write =>
    cases hexec
    rfl
  | read =>
    cases hexec
    unfold BFState.read
    split <;> rfl

theorem fitsAt_of_exec {node : BFNode} {t s : BFState} (hexec : node.exec size t = some s)
    (hmoved : ∀ count, node = .move count → t.moved = 0) (hfits : s.flush.fits = true) :
    node.FitsAt t := by
  cases node with
  | arith | read => trivial
  | move count =>
    obtain ⟨-, hexec⟩ := Option.ite_none_right_eq_some.1 hexec
    cases hexec
    have hlt := of_decide_eq_true (Bool.and_eq_true_iff.1 hfits).2
    dsimp only at hlt
    rwa [hmoved count rfl, zero_add] at hlt
  | write =>
    cases hexec
    have hwrite := (Bool.and_eq_true_iff.1 hfits).1
    have hcell := of_decide_eq_true (Bool.and_eq_true_iff.1 hwrite).2
    exact hcell

/-- A command that is not merged ends the run of moves before it. -/
theorem not_fits_next {last : BFNode} {command : BFCommand} {t s s' : BFState}
    (hlast : last.exec size t = some s) (hmerge : last.merge command.create = none)
    (hexec : command.exec size s = some s') (h : s.flush.fits = false) : s'.fits = false := by
  cases command with
  | plus | minus =>
    cases hexec
    exact h
  | read =>
    cases hexec
    unfold BFState.read
    split <;> exact h
  | write =>
    cases hexec
    exact (congrArg (· && _) h).trans (Bool.false_and _)
  | next | prev =>
    have hmoved : s.moved = 0 := by
      apply moved_of_exec hlast
      rintro count rfl
      cases hmerge
    obtain ⟨-, hexec⟩ := Option.ite_none_right_eq_some.1 hexec
    cases hexec
    rw [BFState.flush, hmoved] at h
    exact (Bool.and_true _).symm.trans h

/-- There is nothing to show for a run that leaves the tape. -/
theorem reaches_of_not_fits {outcome : Outcome BFState} {fuel stop : Nat} {m : BFMachine}
    (h : Fitted outcome) (hnot : outcome.Holds fun s => s.flush.fits = false) :
    Reaches size method fuel m stop outcome := by
  have hstuck := Outcome.stuck_of_holds h (hnot.imp fun s hs => by
    rw [hs]
    exact Bool.false_ne_true)
  rw [hstuck]
  trivial

section Step

variable {again : Body BFCommand → BFState → Outcome BFState} {fuel fuel' : Nat}

theorem not_fits_runWith (hagain : Again size method fuel again) (program : Body BFCommand)
    {s : BFState} (h : s.fits = false) :
    (program.runWith (BFCommand.exec size) test again s).Holds fun s => s.fits = false :=
  Body.runWith_holds (@not_fits_exec size) (fun s hs => not_fits_flush s hs)
    (fun program s hs => hagain.not_fits program s hs) program h

theorem not_fits_loop (hagain : Again size method fuel again) (body rest : Body BFCommand)
    {s : BFState} (h : s.flush.fits = false) :
    ((Body.loop body rest).runWith (BFCommand.exec size) test again s).Holds
      fun s => s.fits = false := by
  have hsame : (Body.loop body rest).runWith (BFCommand.exec size) test again s =
      (Body.loop body rest).runWith (BFCommand.exec size) test again s.flush := by
    rw [Body.runWith, Body.runWith, test, test, flush_flush]
    rfl
  rw [hsame]
  exact not_fits_runWith hagain _ h

variable {nextLabel : Nat} {before behind : List BFInsn} {program : Body BFCommand}
  {t s s' : BFState} {m : BFMachine}

theorem placed_body {body rest : Body BFCommand}
    (h : Placed method before behind nextLabel none (.loop body rest)) :
    ∃ behind', Placed method (before ++ insns (loopHead nextLabel (nextLabel + 1))) behind'
      (nextLabel + 2) none body :=
  ⟨_, place_body h.code, (le_max_left ..).trans h.maxHeight, fun _ => h.loops rfl⟩

theorem placed_rest {body rest : Body BFCommand}
    (h : Placed method before behind nextLabel none (.loop body rest)) :
    ∃ nextLabel', codeOf nextLabel none (.loop body rest) =
        loopInsns nextLabel (bfOptimize none (body.map BFCommand.create)) ++
          codeOf nextLabel' none rest ∧
      Placed method (before ++ loopInsns nextLabel (bfOptimize none (body.map BFCommand.create)))
        behind nextLabel' none rest := by
  refine ⟨_, ?_, place_rest h.code, (le_max_right ..).trans h.maxHeight, fun _ => h.loops rfl⟩
  refine (insns_loop ..).trans ?_
  simp only [loopInsns, codeOf, List.append_assoc]

/-- A loop, with the code at its test. -/
theorem loop_reaches (hnodup : (labels method.code).Nodup) (hagain : Again size method fuel again)
    (hfuel : fuel' ≤ fuel + 1) {body rest : Body BFCommand}
    (ih : ∀ nextLabel before behind s m, Placed method before behind nextLabel none rest →
      Ready size s m → m.pc = before.length → s.moved = 0 →
      Fitted (rest.runWith (BFCommand.exec size) test again s) →
      Reaches size method fuel' m (before ++ codeOf nextLabel none rest).length
        (rest.runWith (BFCommand.exec size) test again s))
    (hplaced : Placed method before behind nextLabel none (.loop body rest))
    (hready : Ready size s m) (hpc : m.pc = before.length)
    (hfitted : Fitted ((Body.loop body rest).runWith (BFCommand.exec size) test again s)) :
    Reaches size method fuel' m (before ++ codeOf nextLabel none (.loop body rest)).length
      ((Body.loop body rest).runWith (BFCommand.exec size) test again s) := by
  obtain ⟨k, m1, hk, hsteps, hready1, hpc1⟩ :=
    test_runs hnodup (hplaced.loops rfl) hplaced.code hready hpc
  have hrun : (Body.loop body rest).runWith (BFCommand.exec size) test again s =
      if s.cell = 0 then rest.runWith (BFCommand.exec size) test again s.flush
      else (again body s.flush).bind (again (.loop body rest)) := by
    rw [Body.runWith, test]
    by_cases hzero : s.cell = 0
    · simp only [hzero, ne_eq, not_true, decide_false, if_true]
    · simp only [hzero, ne_eq, not_false_eq_true, decide_true, if_false]
  rw [hrun] at hfitted ⊢
  by_cases hzero : s.cell = 0
  · rw [if_pos hzero] at hpc1 hfitted ⊢
    obtain ⟨nextLabel', hcode, hrest⟩ := placed_rest hplaced
    rw [hcode, ← List.append_assoc]
    apply reaches_after hsteps (Nat.le_add_left ..)
    exact ih nextLabel' _ behind s.flush m1 hrest hready1 hpc1 rfl hfitted
  · rw [if_neg hzero] at hpc1 hfitted ⊢
    obtain ⟨behind', hbody⟩ := placed_body hplaced
    have hinner := hagain.reaches body (nextLabel + 2) _ behind' s.flush m1 hbody hready1 hpc1
      (.inl rfl)
    cases hout : again body s.flush with
    | stuck => trivial
    | running s1 =>
      rw [hout] at hfitted hinner
      exact reaches_after hsteps (by omega) (hinner hfitted)
    | done s1 =>
      rw [hout] at hfitted hinner
      cases hfits : s1.flush.fits with
      | false =>
        have hnot := hagain.not_fits_loop body rest s1 hfits
        exact @reaches_of_not_fits _ _ (again (.loop body rest) s1) _ _ _ hfitted hnot
      | true =>
        obtain ⟨l, m2, hsteps2, hready2, hpc2⟩ := hinner hfits
        have htwo := hplaced.loops rfl
        obtain ⟨m3, hsteps3, hready3, hpc3⟩ := tail_runs hnodup (by omega) hplaced.code hready2
          (by rw [hpc2, List.append_assoc]; rfl)
        have hagain' := hagain.reaches (.loop body rest) nextLabel before behind s1 m3 hplaced
          hready3 hpc3 (.inr ⟨body, rest, rfl⟩) hfitted
        exact reaches_after (steps_add (steps_add hsteps hsteps2) hsteps3) (by omega) hagain'

theorem exec_onTape {node : BFNode} (hexec : node.exec size t = some s)
    (ht : t.loc < size.value) : s.loc < size.value := by
  cases node with
  | arith | write =>
    cases hexec
    exact ht
  | read =>
    cases hexec
    unfold BFState.read
    split <;> exact ht
  | move count =>
    obtain ⟨hloc, hexec⟩ := Option.ite_none_right_eq_some.1 hexec
    cases hexec
    dsimp only
    omega

/-- Behind a node that is added to the new list. -/
theorem placed_cons {last : Option BFNode} (last' : Option BFNode) (program' : Body BFCommand)
    {node : BFNode} (h : Placed method before behind nextLabel last program)
    (hcons : bfOptimize last (program.map BFCommand.create) =
      .cons node (bfOptimize last' (program'.map BFCommand.create)))
    (hloops : program'.hasLoop = true → program.hasLoop = true) :
    codeOf nextLabel last program = insns (node.genDiscard nextLabel).1 ++
        codeOf (node.genDiscard nextLabel).2 last' program' ∧
      Placed method (before ++ insns (node.genDiscard nextLabel).1) behind
        (node.genDiscard nextLabel).2 last' program' := by
  have hcode : codeOf nextLabel last program = insns (node.genDiscard nextLabel).1 ++
      codeOf (node.genDiscard nextLabel).2 last' program' := by
    rw [codeOf, hcons, insns_cons]
    rfl
  refine ⟨hcode, ?_, ?_, fun hloop => h.loops (hloops hloop)⟩
  · rw [h.code, hcode]
    simp only [List.append_assoc]
  · have hmax := h.maxHeight
    rw [hcons] at hmax
    exact (le_max_right ..).trans hmax

/-- The node that is not put out yet is run before what comes behind it. -/
theorem pending_runs (hnodup : (labels method.code).Nodup) {node : BFNode} {rest : Body BFNode}
    (h : Placed method before behind nextLabel (some node) program)
    (hcons : bfOptimize (some node) (program.map BFCommand.create) = .cons node rest)
    (hready : Ready size t m) (hpc : m.pc = before.length)
    (hpending : Pending size program t s (some node)) (hfits : s.flush.fits = true) :
    ∃ k m', steps method.step k m = some m' ∧ Ready size s m' ∧
      m'.pc = (before ++ insns (node.genDiscard nextLabel).1).length := by
  have hcode := h.code
  have hmax := h.maxHeight
  rw [codeOf, hcons, insns_cons, List.append_assoc] at hcode
  rw [hcons] at hmax
  exact node_runs hnodup hcode ((le_max_left ..).trans hmax) hready hpc hpending.1
    (fitsAt_of_exec hpending.1 hpending.2 hfits)

theorem runWith_reaches (hnodup : (labels method.code).Nodup)
    (hagain : Again size method fuel again) (hfuel : fuel' ≤ fuel + 1) {last : Option BFNode}
    (hplaced : Placed method before behind nextLabel last program) (hready : Ready size t m)
    (hpc : m.pc = before.length) (hpending : Pending size program t s last)
    (hfitted : Fitted (program.runWith (BFCommand.exec size) test again s)) :
    Reaches size method fuel' m (before ++ codeOf nextLabel last program).length
      (program.runWith (BFCommand.exec size) test again s) := by
  induction program generalizing last nextLabel before behind t s m with
  | nil =>
    cases last with
    | none =>
      obtain ⟨rfl, -⟩ := hpending
      exact ⟨0, m, rfl, hready, by rw [hpc]; exact congrArg _ (List.append_nil _).symm⟩
    | some node =>
      obtain ⟨k, m', hsteps, hready', hpc'⟩ :=
        pending_runs hnodup hplaced rfl hready hpc hpending hfitted
      have hcode : codeOf nextLabel (some node) .nil = insns (node.genDiscard nextLabel).1 :=
        (insns_cons ..).trans (List.append_nil _)
      exact ⟨k, m', hsteps, hready', by rw [hpc', hcode]⟩
  | cons command rest ih =>
    cases hexec : command.exec size s with
    | none =>
      rw [Body.runWith, hexec]
      trivial
    | some s' =>
      rw [Body.runWith, hexec] at hfitted ⊢
      cases last with
      | none =>
        obtain ⟨rfl, hmoved⟩ := hpending
        have hmoved : s.moved = 0 := hmoved.resolve_right (by rintro ⟨body, rest, h⟩; cases h)
        have hcreate := (exec_create size command s hready.onTape).trans hexec
        have hrest : Placed method before behind nextLabel (some command.create) rest :=
          ⟨hplaced.code, hplaced.maxHeight, hplaced.loops⟩
        exact ih hrest hready hpc ⟨hcreate, fun _ _ => hmoved⟩ hfitted
      | some node =>
        have honTape := exec_onTape hpending.1 hready.onTape
        have hcreate := (exec_create size command s honTape).trans hexec
        cases hmerge : node.merge command.create with
        | some both =>
          have hopt : bfOptimize (some node) ((Body.cons command rest).map BFCommand.create) =
              bfOptimize (some both) (rest.map BFCommand.create) := by
            rw [Body.map, bfOptimize, hmerge]
          obtain ⟨hcode, hmax, hloops⟩ := hplaced
          rw [codeOf, hopt] at hcode ⊢
          rw [hopt] at hmax
          refine ih ⟨hcode, hmax, hloops⟩ hready hpc
            ⟨exec_merge size hmerge hready.onTape hpending.1 hcreate, ?_⟩ hfitted
          rintro count rfl
          cases node with
          | move count' => exact hpending.2 count' rfl
          | arith | read | write =>
            cases hcommand : command.create <;> rw [hcommand] at hmerge <;> cases hmerge
        | none =>
          have hopt : bfOptimize (some node) ((Body.cons command rest).map BFCommand.create) =
              .cons node (bfOptimize (some command.create) (rest.map BFCommand.create)) := by
            rw [Body.map, bfOptimize, hmerge]
          cases hfits : s.flush.fits with
          | false =>
            have hlater := not_fits_next hpending.1 hmerge hexec hfits
            exact reaches_of_not_fits hfitted
              ((not_fits_runWith hagain rest hlater).imp not_fits_flush)
          | true =>
            obtain ⟨hcode, hrest⟩ := placed_cons _ _ hplaced hopt id
            obtain ⟨k, m1, hsteps, hready1, hpc1⟩ :=
              pending_runs hnodup hplaced hopt hready hpc hpending hfits
            rw [hcode, ← List.append_assoc]
            apply reaches_after hsteps (Nat.le_add_left ..)
            refine ih hrest hready1 hpc1 ⟨hcreate, ?_⟩ hfitted
            intro count hmove
            apply moved_of_exec hpending.1
            rintro count' rfl
            rw [hmove] at hmerge
            cases hmerge
  | loop body rest _ ih =>
    have hloop {nextLabel before behind s m}
        (hplaced : Placed method before behind nextLabel none (.loop body rest))
        (hready : Ready size s m) (hpc : m.pc = before.length)
        (hfitted : Fitted ((Body.loop body rest).runWith (BFCommand.exec size) test again s)) :=
      loop_reaches hnodup hagain hfuel (fun _ _ _ _ _ hplaced hready hpc hmoved =>
        ih hplaced hready hpc ⟨rfl, .inl hmoved⟩) hplaced hready hpc hfitted
    cases last with
    | none =>
      obtain ⟨rfl, -⟩ := hpending
      exact hloop hplaced hready hpc hfitted
    | some node =>
      cases hfits : s.flush.fits with
      | false =>
        exact reaches_of_not_fits hfitted
          ((not_fits_loop hagain body rest hfits).imp not_fits_flush)
      | true =>
        obtain ⟨hcode, hrest⟩ := placed_cons none (.loop body rest) hplaced rfl id
        obtain ⟨k, m1, hsteps, hready1, hpc1⟩ :=
          pending_runs hnodup hplaced rfl hready hpc hpending hfits
        rw [hcode, ← List.append_assoc]
        exact reaches_after hsteps (Nat.le_add_left ..) (hloop hrest hready1 hpc1 hfitted)

end Step

theorem again_again (hnodup : (labels method.code).Nodup) (fuel : Nat) :
    Again size method fuel (Body.again (BFCommand.exec size) test fuel) := by
  induction fuel with
  | zero =>
    exact {
      not_fits := fun _ _ h => h
      not_fits_loop := fun _ _ _ h => h
      reaches := fun _ _ _ _ _ m _ hready _ _ _ => ⟨0, m, le_refl 0, rfl, hready⟩ }
  | succ fuel ih =>
    rw [Body.again, Body.run_eq]
    exact {
      not_fits := fun program s h => not_fits_runWith ih program h
      not_fits_loop := fun body rest s h =>
        (not_fits_loop ih body rest h).imp not_fits_flush
      reaches := fun program _ _ _ s _ hplaced hready hpc hmoved hfitted =>
        runWith_reaches hnodup ih (le_refl _) hplaced hready hpc ⟨rfl, hmoved⟩ hfitted }

/-- A run of a program from its start, with the code at its start. -/
theorem interpret_reaches (hnodup : (labels method.code).Nodup) {program : Body BFCommand}
    {nextLabel : Nat} {before behind : List BFInsn} {s : BFState} {m : BFMachine}
    (hplaced : Placed method before behind nextLabel none program) (hready : Ready size s m)
    (hpc : m.pc = before.length) (hmoved : s.moved = 0) (fuel : Nat)
    (hfitted : Fitted (interpret size fuel program s)) :
    Reaches size method fuel m (before ++ codeOf nextLabel none program).length
      (interpret size fuel program s) := by
  rw [interpret, Body.run_eq] at hfitted ⊢
  exact runWith_reaches hnodup (again_again hnodup fuel) (Nat.le_succ fuel) hplaced hready hpc
    ⟨rfl, .inl hmoved⟩ hfitted

end Simulation

/-! ### The height of the stack that the method asks for -/

section MaxStack

theorem heights_node (node : BFNode) (nextLabel : Nat) {highest : Int} (h : 0 ≤ highest) :
    (node.genDiscard nextLabel).1.foldl GenOp.adjustHeight (0, highest) =
      (0, max highest node.maxHeight) := by
  cases node with
  | read | write =>
    simp only [BFNode.genDiscard, genRead, genWrite, List.foldl, GenOp.adjustHeight,
      BFNode.maxHeight, Prod.mk.injEq]
    omega
  | arith count =>
    simp only [BFNode.genDiscard, genArith, BFNode.maxHeight]
    split_ifs <;> simp [GenOp.adjustHeight, ilGenShortInsn, h]
  | move count =>
    simp only [BFNode.genDiscard, genMove, BFNode.maxHeight]
    split_ifs <;> simp [GenOp.adjustHeight, ilGenShortInsn, h]

theorem heights_genDiscard (nextLabel : Nat) (body : Body BFNode) {highest : Int}
    (h : 0 ≤ highest) : (genDiscard nextLabel body).1.foldl GenOp.adjustHeight (0, highest) =
      (0, max highest (maxHeight body)) := by
  induction body generalizing nextLabel highest with
  | nil => exact congrArg (Prod.mk 0) (max_eq_left h).symm
  | cons node rest ih =>
    rw [genDiscard, List.foldl_append, heights_node node nextLabel h,
      ih _ (h.trans (le_max_left ..)), max_assoc]
    rfl
  | loop body rest ihbody ih =>
    have hhead (heights : Int × Int) : (loopHead nextLabel (nextLabel + 1)).foldl
        GenOp.adjustHeight heights = heights := rfl
    have htail (heights : Int × Int) : (loopTail nextLabel (nextLabel + 1)).foldl
        GenOp.adjustHeight heights = heights := rfl
    rw [genDiscard, List.foldl_append, hhead, List.foldl_append, ihbody _ h, List.foldl_append,
      htail, ih _ (h.trans (le_max_left ..)), max_assoc]
    rfl

theorem maxStack_compile (size : MaxArraySize) (program : Body BFCommand) :
    (compile size program).maxStack =
      max 1 (maxHeight (bfOptimize none (program.map BFCommand.create))) := by
  have hlocals : (genLocals size).foldl GenOp.adjustHeight (0, 0) = (0, 1) := rfl
  have hret (heights : Int × Int) : [GenOp.insn .ret].foldl GenOp.adjustHeight heights =
      heights := rfl
  rw [compile, genProgram, List.foldl_append, hlocals, List.foldl_append, hret,
    heights_genDiscard 1 _ (by decide)]

/-- What is left of a program whose code needs no stack. -/
def idleFrom (last : Option BFNode) (program : Body BFCommand) : Bool :=
  match last with
  | none => idle 0 0 program
  | some (.arith count) => idle count 0 program
  | some (.move count) => idle 0 count program
  | some .read | some .write => false

theorem idle_of_maxHeight {last : Option BFNode} {program : Body BFCommand}
    (h : maxHeight (bfOptimize last (program.map BFCommand.create)) < 2) :
    idleFrom last program = true := by
  have hcount {node : BFNode} {rest : Body BFNode} (hcons : maxHeight (.cons node rest) < 2) :
      node.maxHeight < 2 ∧ maxHeight rest < 2 := max_lt_iff.1 hcons
  have harith {count : ILInt32} (hheight : (BFNode.arith count).maxHeight < 2) : count = 0 := by
    by_contra hne
    rw [BFNode.maxHeight, if_neg hne] at hheight
    exact absurd hheight (by decide)
  have hmove {count : ILInt32} (hheight : (BFNode.move count).maxHeight < 2) : count = 0 := by
    by_contra hne
    rw [BFNode.maxHeight, if_neg hne] at hheight
    exact absurd hheight (by decide)
  induction program generalizing last with
  | nil =>
    cases last with
    | none => rfl
    | some node =>
      have hnode := (hcount h).1
      cases node with
      | arith count =>
        rw [harith hnode]
        rfl
      | move count =>
        rw [hmove hnode]
        rfl
      | read | write => exact absurd hnode (by decide)
  | cons command rest ih =>
    cases last with
    | none =>
      have hrest := @ih (some command.create) h
      cases command with
      | plus | minus | next | prev => exact decide_eq_true ⟨rfl, hrest⟩
      | read | write => exact hrest
    | some node =>
      cases hmerge : node.merge command.create with
      | some both =>
        rw [Body.map, bfOptimize, hmerge] at h
        have hrest := ih h
        cases node with
        | read | write => cases hmerge
        | arith count =>
          cases command with
          | plus | minus =>
            cases hmerge
            exact decide_eq_true ⟨rfl, hrest⟩
          | next | prev | read | write => cases hmerge
        | move count =>
          cases command with
          | next | prev =>
            cases hmerge
            exact decide_eq_true ⟨rfl, hrest⟩
          | plus | minus | read | write => cases hmerge
      | none =>
        rw [Body.map, bfOptimize, hmerge] at h
        obtain ⟨hnode, hrest⟩ := hcount h
        have hrest := ih hrest
        cases node with
        | read | write => exact absurd hnode (by decide)
        | arith count =>
          rw [harith hnode]
          cases command with
          | plus | minus => cases hmerge
          | next | prev => exact decide_eq_true ⟨rfl, hrest⟩
          | read | write => exact hrest
        | move count =>
          rw [hmove hnode]
          cases command with
          | next | prev => cases hmerge
          | plus | minus => exact decide_eq_true ⟨rfl, hrest⟩
          | read | write => exact hrest
  | loop body rest ihbody ih =>
    have hloop {inner : Body BFNode} (hinner : inner = .loop (bfOptimize none
        (body.map BFCommand.create)) (bfOptimize none (rest.map BFCommand.create)))
        (hmax : maxHeight inner < 2) : idle 0 0 body = true ∧ idle 0 0 rest = true := by
      rw [hinner] at hmax
      obtain ⟨hbody, hrest⟩ := max_lt_iff.1 hmax
      exact ⟨@ihbody none hbody, @ih none hrest⟩
    cases last with
    | none =>
      obtain ⟨hbody, hrest⟩ := hloop rfl h
      exact decide_eq_true ⟨rfl, rfl, hbody, hrest⟩
    | some node =>
      obtain ⟨hnode, hinner⟩ := hcount h
      obtain ⟨hbody, hrest⟩ := hloop rfl hinner
      cases node with
      | read | write => exact absurd hnode (by decide)
      | arith count =>
        rw [harith hnode]
        exact decide_eq_true ⟨rfl, rfl, hbody, hrest⟩
      | move count =>
        rw [hmove hnode]
        exact decide_eq_true ⟨rfl, rfl, hbody, hrest⟩

end MaxStack

/-! ### The code of a whole program -/

section Program

variable (size : MaxArraySize) (program : Body BFCommand) (input : List ILUInt16)

theorem code_compile : (compile size program).code =
    insns (genLocals size) ++ (codeOf 1 none program ++ [.ret]) := by
  rw [compile, genProgram]
  exact (insns_append ..).trans (congrArg _ (insns_append ..))

theorem nodup_labels : (labels (compile size program).code).Nodup := by
  have hlocals : labels (insns (genLocals size)) = [] := rfl
  have hret : labels [.ret] = [] := rfl
  rw [code_compile, labels_append, labels_append, hlocals, hret, List.nil_append, List.append_nil]
  exact (labelsIn_genDiscard 1 _).nodup

theorem jumpsIn_compile : JumpsIn (compile size program).code 0 (compile size program).code := by
  have hlocals : height (insns (genLocals size)) = 0 := rfl
  have hcode := code_compile size program
  have hgen := jumpsIn_genDiscard 1 _ hcode hlocals
  have hall : JumpsIn (compile size program).code 0
      (insns (genLocals size) ++ (codeOf 1 none program ++ [.ret])) := by
    rw [jumpsIn_append, jumpsIn_append, hlocals]
    refine ⟨?_, hgen, ?_⟩
    · exact jumpsIn_of_no_target rfl
    · exact jumpsIn_of_no_target rfl
  rwa [← hcode] at hall

theorem exec_newarr {code : List BFInsn} {m : BFMachine} {length : ILInt32}
    {stack : List BFValue} (hstack : m.stack = .int32 length :: stack)
    (h : length.toNat < 2 ^ 31) : BFInsn.newarr.exec code m =
      some { m.advance (.array length.toNat :: stack) with cells := fun _ => 0 } := by
  have hint : length.toInt = length.toNat := BitVec.toInt_eq_toNat_of_lt (by omega)
  unfold BFInsn.exec
  rw [hstack]
  exact if_neg (by omega)

/-- The array and the head are there before the first command. -/
theorem locals_run : ∃ k m, steps (compile size program).step k (.start input) = some m ∧
    Ready size (.start size input) m ∧ m.pc = (insns (genLocals size)).length := by
  have hmax : 1 ≤ (compile size program).maxStack := by
    rw [maxStack_compile]
    exact le_max_left ..
  have hlt := size.lt_max
  have hsize : (BitVec.ofNat 32 size.value).toNat = size.value :=
    Nat.mod_eq_of_lt (by omega)
  have hhalf : (BitVec.ofNat 32 (size.value / 2)).toNat = size.value / 2 :=
    Nat.mod_eq_of_lt (by omega)
  have hstraight : straight (compile size program) (insns (genLocals size)) (.start input) =
      some ⟨5, [], some size.value, BitVec.ofNat 32 (size.value / 2), fun _ => 0, input, []⟩ := by
    change straight _ [.ldcI4 _, .newarr, .stloc0, .ldcI4 _, .stloc1]
      ⟨0, [], none, 0, fun _ => 0, input, []⟩ = _
    refine (straight_cons rfl rfl (by simp [BFMachine.advance]; omega)).trans ?_
    refine (straight_cons (exec_newarr rfl ?_) rfl (by simp [BFMachine.advance]; omega)).trans ?_
    · rw [hsize]
      exact hlt
    refine (straight_cons rfl rfl (by simp [BFMachine.advance]; omega)).trans ?_
    refine (straight_cons rfl rfl (by simp [BFMachine.advance]; omega)).trans ?_
    refine (straight_cons rfl rfl (by simp [BFMachine.advance]; omega)).trans ?_
    rw [straight, hsize]
    rfl
  have hcode : (compile size program).code =
      [] ++ (insns (genLocals size) ++ (codeOf 1 none program ++ [.ret])) := code_compile ..
  have hsteps := steps_straight hcode rfl hstraight
  refine ⟨_, _, hsteps.1, ?_, rfl⟩
  have height := size.eight_le
  exact ⟨⟨rfl, hhalf, rfl, rfl, rfl⟩, rfl, Nat.div_lt_self (by omega) (by decide)⟩

theorem placed_compile (hidle : program.hasLoop = true → idle 0 0 program = false) :
    Placed (compile size program) (insns (genLocals size)) [.ret] 1 none program where
  code := code_compile size program
  maxHeight := by
    rw [maxStack_compile]
    exact le_max_right ..
  loops := by
    intro hloop
    by_contra hnot
    have hlow : maxHeight (bfOptimize none (program.map BFCommand.create)) < 2 := by
      rw [maxStack_compile] at hnot
      exact (le_max_right ..).trans_lt (not_le.1 hnot)
    have hidle' := idle_of_maxHeight hlow
    rw [idleFrom, hidle hloop] at hidle'
    cases hidle'

/-- The code of a program does what the program does, if the program fits and does not only
test cells. -/
theorem preserves_of_fitted (hidle : program.hasLoop = true → idle 0 0 program = false)
    (hfitted : ∀ fuel, Fitted (interpret size fuel program (.start size input))) :
    Preserves size program input := by
  have hnodup := nodup_labels size program
  have hplaced := placed_compile size program hidle
  obtain ⟨k, m, hsteps, hready, hpc⟩ := locals_run size program input
  have hreaches (fuel : Nat) := reaches_after hsteps (Nat.le_add_left ..)
    (interpret_reaches hnodup hplaced hready hpc rfl fuel (hfitted fuel))
  refine ⟨?_, ?_, ?_⟩
  · intro fuel s hdone
    have hrun := hreaches fuel
    rw [hdone] at hrun
    obtain ⟨k, m, hsteps, hready, hpc⟩ := hrun
    refine ⟨k, m, hsteps, ⟨?_, hready.stack⟩, hready.toAgrees⟩
    rw [code_compile, hpc, ← List.append_assoc]
    exact List.getElem?_concat_length
  · intro fuel s hrunning
    have hrun := hreaches fuel
    rw [hrunning] at hrun
    obtain ⟨k, m, hle, hsteps, hready⟩ := hrun
    exact ⟨k, m, hle, hsteps, hready.toAgrees⟩
  · intro k m hsteps hstart
    have hheight := steps_invariant (P := AtHeight (compile size program).code)
      (fun m m' hstep h => atHeight_step hnodup (jumpsIn_compile size program) hstep h) hsteps rfl
    have hzero := height_commandStarts 1 _ (code_compile size program) rfl hstart
    rw [AtHeight, hzero] at hheight
    exact List.eq_nil_of_length_eq_zero (Int.ofNat.inj hheight)

/-- Whatever is read on the way, the stack has one height at each instruction. -/
theorem stack_height_unique {input input' : List ILUInt16} {k k' : Nat} {m m' : BFMachine}
    (h : steps (compile size program).step k (.start input) = some m)
    (h' : steps (compile size program).step k' (.start input') = some m') (hpc : m.pc = m'.pc) :
    m.stack.length = m'.stack.length := by
  have hstep (m m' : BFMachine) :=
    @atHeight_step _ (nodup_labels size program) (jumpsIn_compile size program) m m'
  have hheight := steps_invariant hstep h rfl
  have hheight' := steps_invariant hstep h' rfl
  unfold AtHeight at hheight hheight'
  rw [hpc, ← hheight'] at hheight
  exact Int.ofNat.inj hheight

end Program

theorem stack_height_unique_read :
    let method := compile ⟨8000, by decide, by decide⟩ (.cons .read .nil)
    ∃ m m', steps method.step 7 (.start [65]) = some m ∧ steps method.step 7 (.start []) = some m' ∧
      m.stack.length = m'.stack.length :=
  ⟨_, _, rfl, rfl, @stack_height_unique ⟨8000, by decide, by decide⟩ (.cons .read .nil) [65] []
    7 7 _ _ rfl rfl rfl⟩

/-- `+[-].` -/
theorem preserves_of_fitted_sample : Preserves ⟨8000, by decide, by decide⟩
    (.cons .plus (.loop (.cons .minus .nil) (.cons .write .nil))) [] := by
  apply preserves_of_fitted
  · exact fun _ => rfl
  · intro fuel
    match fuel with
    | 0 => rfl
    | 1 => rfl
    | fuel + 2 => rfl

/-! ### A run of moves that is too long -/

section Moves

/-- A number of moves to the right. -/
def moves : Nat → Body BFCommand
  | 0 => .nil
  | num + 1 => .cons .next (moves num)

theorem run_moves (size : MaxArraySize) (num : Nat) {s : BFState}
    (hloc : s.loc + num < size.value) : interpret size 0 (moves num) s =
      .done { s with loc := s.loc + num, moved := s.moved + num } := by
  induction num generalizing s with
  | zero =>
    simp only [Nat.cast_zero, add_zero]
    rfl
  | succ num ih =>
    have hnext : BFCommand.next.exec size s =
        some { s with loc := s.loc + 1, moved := s.moved + 1 } := if_pos (by omega)
    have hrest := @ih { s with loc := s.loc + 1, moved := s.moved + 1 } (by dsimp only; omega)
    rw [interpret, Body.run, moves, Body.runWith, hnext]
    refine hrest.trans ?_
    dsimp only
    rw [Nat.cast_succ]
    congr 2
    · omega
    · omega

theorem bfOptimize_moves (num : Nat) (count : ILInt32) :
    bfOptimize (some (.move count)) ((moves num).map BFCommand.create) =
      .cons (.move (count + BitVec.ofNat 32 num)) .nil := by
  induction num generalizing count with
  | zero => simp [moves, Body.map, bfOptimize]
  | succ num ih =>
    have hmerge : (BFNode.move count).merge BFCommand.next.create = some (.move (count + 1)) :=
      rfl
    rw [moves, Body.map, bfOptimize, hmerge]
    refine (ih _).trans ?_
    congr 2
    rw [BitVec.add_assoc]
    congr 1
    apply BitVec.eq_of_toNat_eq
    simp [Nat.add_comm]

theorem bfOptimize_moves_succ (num : Nat) :
    bfOptimize none ((moves (num + 1)).map BFCommand.create) =
      .cons (.move (1 + BitVec.ofNat 32 num)) .nil :=
  bfOptimize_moves num 1

/-- An array as `-fmax-array-size` may ask for. -/
def largeArray : MaxArraySize := ⟨200000, by decide, by decide⟩

/-- The end of a run of 2^16 moves is a move by nothing. -/
theorem not_preserves : ¬ Preserves largeArray (moves 0x10000) [] := by
  intro hpreserves
  have hrun := run_moves largeArray 0x10000 (s := .start largeArray []) (by decide)
  obtain ⟨k, m, hsteps, hhalted, hagrees⟩ := hpreserves.done 0 _ hrun
  have hcode : compile largeArray (moves 0x10000) = ⟨[.ldcI4 200000, .newarr, .stloc0,
      .ldcI4 100000, .stloc1, .ldloc1, .ldcI4S 0, .add, .stloc1, .ret], 2⟩ := by
    have hcount : (1 : ILInt32) + BitVec.ofNat 32 0xFFFF = 0x10000 := by decide
    rw [compile, bfOptimize_moves_succ 0xFFFF, hcount]
    rfl
  rw [hcode] at hsteps hhalted
  have hstop (m : BFMachine) (method : BFMethod) (h : method.Halted m) :
      method.step m = none := by
    rw [BFMethod.step, h.1]
    rfl
  have hhere : steps (BFMethod.step ⟨[.ldcI4 200000, .newarr, .stloc0, .ldcI4 100000, .stloc1,
      .ldloc1, .ldcI4S 0, .add, .stloc1, .ret], 2⟩) 9 (.start []) =
        some ⟨9, [], some 200000, 100000, fun _ => 0, [], []⟩ := rfl
  have hsame := steps_unique hsteps hhere (hstop _ _ hhalted) rfl
  have hloc := hagrees.loc
  rw [hsame] at hloc
  exact absurd hloc (by decide)

end Moves

end Pnet.Cscc.BF
