import Pnet.Cscc.BFProgram

/-! The shape of the code that is put out: where the code of a loop lies, that a label is there
once, and how high the stack is at each instruction. -/
namespace Pnet.Cscc.BF
open Pnet.Lib

/-! ### Labels -/

section Labels

def BFInsn.label? : BFInsn → Option Nat
  | label name => some name
  | _ => none

def labels (code : List BFInsn) : List Nat := code.filterMap BFInsn.label?

theorem labels_append (code code' : List BFInsn) :
    labels (code ++ code') = labels code ++ labels code' :=
  List.filterMap_append ..

theorem insns_append (ops ops' : List GenOp) : insns (ops ++ ops') = insns ops ++ insns ops' :=
  List.filterMap_append ..

/-- The labels of a piece of code, which were taken from a range. -/
structure LabelsIn (code : List BFInsn) (first next : Nat) : Prop where
  le : first ≤ next
  nodup : (labels code).Nodup
  mem : ∀ name ∈ labels code, first ≤ name ∧ name < next

theorem LabelsIn.append {code code' : List BFInsn} {first middle next : Nat}
    (h : LabelsIn code first middle) (h' : LabelsIn code' middle next) :
    LabelsIn (code ++ code') first next where
  le := h.le.trans h'.le
  nodup := by
    rw [labels_append, List.nodup_append]
    refine ⟨h.nodup, h'.nodup, ?_⟩
    rintro name hname _ hname' rfl
    have hlt := (h.mem name hname).2
    have hle := (h'.mem name hname').1
    omega
  mem := by
    intro name hname
    rw [labels_append, List.mem_append] at hname
    have hle := h.le
    have hle' := h'.le
    cases hname with
    | inl hname =>
      have hin := h.mem name hname
      exact ⟨hin.1, by omega⟩
    | inr hname =>
      have hin := h'.mem name hname
      exact ⟨by omega, hin.2⟩

theorem labelsIn_node (node : BFNode) (nextLabel : Nat) :
    LabelsIn (insns (node.genDiscard nextLabel).1) nextLabel (node.genDiscard nextLabel).2 := by
  have hnone {code : List BFInsn} (hcode : labels code = []) :
      LabelsIn code nextLabel nextLabel := by
    refine ⟨le_refl _, ?_, ?_⟩
    · rw [hcode]
      exact List.nodup_nil
    · rw [hcode]
      exact fun _ hname => absurd hname List.not_mem_nil
  cases node with
  | arith count =>
    apply hnone
    simp only [BFNode.genDiscard, genArith]
    split_ifs <;> rfl
  | move count =>
    apply hnone
    simp only [BFNode.genDiscard, genMove]
    split_ifs <;> rfl
  | write => exact hnone rfl
  | read =>
    refine ⟨Nat.le_succ _, List.nodup_singleton _, ?_⟩
    intro name hname
    obtain rfl := List.mem_singleton.1 hname
    exact ⟨le_refl _, Nat.lt_succ_self _⟩

/-- The labels of a loop are those before the ones of its body. -/
theorem labelsIn_loop {code : List BFInsn} {nextLabel next : Nat}
    (h : LabelsIn code (nextLabel + 2) next) :
    LabelsIn (insns (loopHead nextLabel (nextLabel + 1)) ++
      (code ++ insns (loopTail nextLabel (nextLabel + 1)))) nextLabel next := by
  have hle := h.le
  have hlabels : labels (insns (loopHead nextLabel (nextLabel + 1)) ++
      (code ++ insns (loopTail nextLabel (nextLabel + 1)))) =
        nextLabel :: (labels code ++ [nextLabel + 1]) := by
    rw [labels_append, labels_append]
    rfl
  have hnotMem {name : Nat} (hname : name < nextLabel + 2) : name ∉ labels code := fun hmem =>
    absurd (h.mem name hmem).1 (by omega)
  refine ⟨by omega, ?_, ?_⟩
  · rw [hlabels, List.nodup_cons, List.nodup_append]
    refine ⟨?_, h.nodup, List.nodup_singleton _, ?_⟩
    · simp [hnotMem]
    · rintro name hname _ hname' rfl
      obtain rfl := List.mem_singleton.1 hname'
      exact hnotMem (by omega) hname
  · intro name hname
    rw [hlabels, List.mem_cons, List.mem_append, List.mem_singleton] at hname
    obtain rfl | hname | rfl := hname
    · exact ⟨le_refl _, by omega⟩
    · have hin := h.mem name hname
      exact ⟨by omega, hin.2⟩
    · exact ⟨by omega, by omega⟩

theorem insns_loop (nextLabel : Nat) (body rest : Body BFNode) :
    insns (genDiscard nextLabel (.loop body rest)).1 =
      insns (loopHead nextLabel (nextLabel + 1)) ++
        (insns (genDiscard (nextLabel + 2) body).1 ++
          (insns (loopTail nextLabel (nextLabel + 1)) ++
            insns (genDiscard (genDiscard (nextLabel + 2) body).2 rest).1)) := by
  rw [genDiscard, insns_append, insns_append, insns_append]

theorem insns_cons (nextLabel : Nat) (node : BFNode) (rest : Body BFNode) :
    insns (genDiscard nextLabel (.cons node rest)).1 =
      insns (node.genDiscard nextLabel).1 ++
        insns (genDiscard (node.genDiscard nextLabel).2 rest).1 :=
  insns_append ..

/-- The code of a loop. -/
def loopInsns (nextLabel : Nat) (body : Body BFNode) : List BFInsn :=
  insns (loopHead nextLabel (nextLabel + 1)) ++ (insns (genDiscard (nextLabel + 2) body).1 ++
    insns (loopTail nextLabel (nextLabel + 1)))

section Place

variable {code before behind : List BFInsn} {nextLabel : Nat} {node : BFNode}
  {body rest : Body BFNode}

theorem place_cons
    (hcode : code = before ++ (insns (genDiscard nextLabel (.cons node rest)).1 ++ behind)) :
    code = before ++ insns (node.genDiscard nextLabel).1 ++
      (insns (genDiscard (node.genDiscard nextLabel).2 rest).1 ++ behind) := by
  rw [hcode, insns_cons]
  simp only [List.append_assoc]

theorem place_body
    (hcode : code = before ++ (insns (genDiscard nextLabel (.loop body rest)).1 ++ behind)) :
    code = before ++ insns (loopHead nextLabel (nextLabel + 1)) ++
      (insns (genDiscard (nextLabel + 2) body).1 ++ (insns (loopTail nextLabel (nextLabel + 1)) ++
        (insns (genDiscard (genDiscard (nextLabel + 2) body).2 rest).1 ++ behind))) := by
  rw [hcode, insns_loop]
  simp only [List.append_assoc]

theorem place_tail
    (hcode : code = before ++ (insns (genDiscard nextLabel (.loop body rest)).1 ++ behind)) :
    code = before ++ (insns (loopHead nextLabel (nextLabel + 1)) ++
      insns (genDiscard (nextLabel + 2) body).1) ++ (insns (loopTail nextLabel (nextLabel + 1)) ++
        (insns (genDiscard (genDiscard (nextLabel + 2) body).2 rest).1 ++ behind)) := by
  rw [hcode, insns_loop]
  simp only [List.append_assoc]

theorem place_rest
    (hcode : code = before ++ (insns (genDiscard nextLabel (.loop body rest)).1 ++ behind)) :
    code = before ++ loopInsns nextLabel body ++
      (insns (genDiscard (genDiscard (nextLabel + 2) body).2 rest).1 ++ behind) := by
  rw [hcode, insns_loop, loopInsns]
  simp only [List.append_assoc]

end Place

theorem labelsIn_genDiscard (nextLabel : Nat) (body : Body BFNode) :
    LabelsIn (insns (genDiscard nextLabel body).1) nextLabel (genDiscard nextLabel body).2 := by
  induction body generalizing nextLabel with
  | nil => exact ⟨le_refl _, List.nodup_nil, fun _ hname => absurd hname List.not_mem_nil⟩
  | cons node rest ih =>
    rw [insns_cons]
    exact (labelsIn_node node nextLabel).append (ih _)
  | loop body rest ihbody ih =>
    rw [insns_loop, ← List.append_assoc _ (insns (loopTail _ _)), ← List.append_assoc]
    exact (labelsIn_loop (ihbody _)).append (ih _)

/-- A label that there is once is found where it is. -/
theorem idxOf_label {code before behind : List BFInsn} {name : Nat} (hnodup : (labels code).Nodup)
    (hcode : code = before ++ .label name :: behind) :
    code.idxOf (.label name) = before.length := by
  have hnotMem : BFInsn.label name ∉ before := by
    intro hmem
    rw [hcode, labels_append, List.nodup_append] at hnodup
    refine hnodup.2.2 name ?_ name ?_ rfl
    · exact List.mem_filterMap.2 ⟨_, hmem, rfl⟩
    · exact List.mem_cons_self
  rw [hcode, List.idxOf_append_of_notMem hnotMem, List.idxOf_cons_self, Nat.add_zero]

end Labels

/-! ### The height of the stack -/

section Height

def BFInsn.target? : BFInsn → Option Nat
  | br name | brfalse name | bge name => some name
  | _ => none

/-- What an instruction does to the height of the stack. -/
def BFInsn.effect : BFInsn → Int
  | label _ | newarr | br _ | ret => 0
  | ldcI4 _ | ldcI4S _ | ldcI4_0 | ldcI4_1 | ldloc0 | ldloc1 | dup | callRead => 1
  | stloc0 | stloc1 | ldelemI1 | add | sub | brfalse _ | callWrite => -1
  | bge _ => -2
  | stelemI1 => -3

def height (code : List BFInsn) : Int := (code.map BFInsn.effect).sum

theorem height_append (code code' : List BFInsn) :
    height (code ++ code') = height code + height code' := by
  rw [height, List.map_append, List.sum_append]
  rfl

/-- The code has the label, and the stack has a height there. -/
def HasLabel (code : List BFInsn) (name : Nat) (labelHeight : Int) : Prop :=
  ∃ before behind, code = before ++ .label name :: behind ∧ height before = labelHeight

/-- In a piece of code that starts with some height, the stack is as high behind a jump as it is
at the label. -/
def JumpsIn (code : List BFInsn) (start : Int) : List BFInsn → Prop
  | [] => True
  | insn :: rest =>
    (∀ name, insn.target? = some name → HasLabel code name (start + insn.effect)) ∧
      JumpsIn code (start + insn.effect) rest

theorem jumpsIn_append {code : List BFInsn} {start : Int} {piece piece' : List BFInsn} :
    JumpsIn code start (piece ++ piece') ↔
      JumpsIn code start piece ∧ JumpsIn code (start + height piece) piece' := by
  induction piece generalizing start with
  | nil => simp [JumpsIn, height]
  | cons insn piece ih =>
    have hheight : height (insn :: piece) = insn.effect + height piece := List.sum_cons
    rw [List.cons_append, JumpsIn, JumpsIn, ih, hheight, and_assoc, ← add_assoc]

/-- An instruction goes on to the next one, or it jumps. -/
structure Goes (code : List BFInsn) (insn : BFInsn) (m m' : BFMachine) : Prop where
  height : (m'.stack.length : Int) = m.stack.length + insn.effect
  pc : m'.pc = m.pc + 1 ∨ ∃ name, insn.target? = some name ∧ m'.pc = code.idxOf (.label name)

theorem goes_of_exec {code : List BFInsn} {insn : BFInsn} {m m' : BFMachine}
    (h : insn.exec code m = some m') : Goes code insn m m' := by
  obtain ⟨pc, stack, bfarray, bfarrayloc, cells, input, events⟩ := m
  cases insn with
  | ret => cases h
  | label | ldcI4 | ldcI4S | ldcI4_0 | ldcI4_1 | ldloc1 =>
    cases h
    exact ⟨by simp [BFMachine.advance, BFInsn.effect], .inl rfl⟩
  | ldloc0 =>
    obtain ⟨length, -, rfl⟩ := Option.map_eq_some_iff.1 h
    exact ⟨by simp [BFMachine.advance, BFInsn.effect], .inl rfl⟩
  | callRead =>
    cases input <;> cases h <;> exact ⟨by simp [BFMachine.advance, BFInsn.effect], .inl rfl⟩
  | br name =>
    cases h
    exact ⟨(Int.add_zero _).symm, .inr ⟨name, rfl, rfl⟩⟩
  | dup =>
    obtain _ | ⟨value, stack⟩ := stack
    · cases h
    · cases h
      exact ⟨by simp [BFMachine.advance, BFInsn.effect], .inl rfl⟩
  | newarr =>
    obtain _ | ⟨length | length, stack⟩ := stack
    · cases h
    · obtain ⟨-, h⟩ := Option.ite_none_left_eq_some.1 h
      cases h
      exact ⟨by simp [BFMachine.advance, BFInsn.effect], .inl rfl⟩
    · cases h
  | stloc0 | stloc1 | callWrite =>
    obtain _ | ⟨value | length, stack⟩ := stack <;> cases h
    exact ⟨by simp [BFMachine.advance, BFInsn.effect], .inl rfl⟩
  | add | sub =>
    obtain _ | ⟨value2 | length, _ | ⟨value1 | length, stack⟩⟩ := stack <;> cases h
    exact ⟨by simp [BFMachine.advance, BFInsn.effect], .inl rfl⟩
  | brfalse name =>
    obtain _ | ⟨value | length, stack⟩ := stack
    · cases h
    · change (if value = 0 then _ else _) = _ at h
      split_ifs at h <;> cases h
      · exact ⟨by simp [BFMachine.jump, BFInsn.effect], .inr ⟨name, rfl, rfl⟩⟩
      · exact ⟨by simp [BFMachine.advance, BFInsn.effect], .inl rfl⟩
    · cases h
  | bge name =>
    obtain _ | ⟨value2 | length, _ | ⟨value1 | length, stack⟩⟩ := stack
    case cons.int32.cons.int32 =>
      change (if value2.sle value1 = true then _ else _) = _ at h
      split_ifs at h <;> cases h
      · exact ⟨by simp [BFMachine.jump, BFInsn.effect]; omega, .inr ⟨name, rfl, rfl⟩⟩
      · exact ⟨by simp [BFMachine.advance, BFInsn.effect]; omega, .inl rfl⟩
    all_goals cases h
  | ldelemI1 =>
    obtain _ | ⟨index | length, _ | ⟨value | length, stack⟩⟩ := stack
    case cons.int32.cons.array =>
      obtain ⟨-, h⟩ := Option.ite_none_right_eq_some.1 h
      cases h
      exact ⟨by simp [BFMachine.advance, BFInsn.effect], .inl rfl⟩
    all_goals cases h
  | stelemI1 =>
    obtain _ | ⟨value | length, _ | ⟨index | length, _ | ⟨value' | length, stack⟩⟩⟩ := stack
    case cons.int32.cons.int32.cons.array =>
      obtain ⟨-, h⟩ := Option.ite_none_right_eq_some.1 h
      cases h
      exact ⟨by simp [BFMachine.advance, BFInsn.effect]; omega, .inl rfl⟩
    all_goals cases h

/-- The stack is as high as the code up to where the machine is says. -/
def AtHeight (code : List BFInsn) (m : BFMachine) : Prop :=
  (m.stack.length : Int) = height (code.take m.pc)

theorem height_take_succ {code : List BFInsn} {pc : Nat} {insn : BFInsn}
    (h : code[pc]? = some insn) :
    height (code.take (pc + 1)) = height (code.take pc) + insn.effect := by
  rw [List.take_add_one, h, height_append]
  simp [height]

theorem atHeight_step {method : BFMethod} (hnodup : (labels method.code).Nodup)
    (hjumps : JumpsIn method.code 0 method.code) {m m' : BFMachine}
    (hstep : method.step m = some m')
    (h : AtHeight method.code m) : AtHeight method.code m' := by
  obtain ⟨insn, hinsn, hstep⟩ := Option.bind_eq_some_iff.1 hstep
  obtain ⟨next, hexec, hstep⟩ := Option.bind_eq_some_iff.1 hstep
  obtain ⟨-, hnext⟩ := Option.ite_none_right_eq_some.1 hstep
  obtain rfl := Option.some.inj hnext
  obtain ⟨hheight, hpc⟩ := goes_of_exec hexec
  have hbehind := height_take_succ hinsn
  unfold AtHeight at h ⊢
  rw [hheight, h, ← hbehind]
  obtain hpc | ⟨name, htarget, hpc⟩ := hpc
  · rw [hpc]
  · obtain ⟨hlt, hget⟩ := List.getElem?_eq_some_iff.1 hinsn
    have hcode : method.code = method.code.take m.pc ++ insn :: method.code.drop (m.pc + 1) := by
      rw [← hget, List.cons_getElem_drop_succ, List.take_append_drop]
    have hpiece := hjumps
    rw [hcode, jumpsIn_append, ← hcode] at hpiece
    obtain ⟨before, behind, hlabel, hsame⟩ := hpiece.2.1 name htarget
    rw [zero_add] at hsame
    rw [hpc, idxOf_label hnodup hlabel, hbehind, ← hsame, hlabel, List.take_left]

/-! What is put out keeps the stack as it was, and its jumps fit. -/

theorem height_node (node : BFNode) (nextLabel : Nat) :
    height (insns (node.genDiscard nextLabel).1) = 0 := by
  cases node with
  | read | write => rfl
  | arith count =>
    simp only [BFNode.genDiscard, genArith]
    split_ifs <;> rfl
  | move count =>
    simp only [BFNode.genDiscard, genMove]
    split_ifs <;> rfl

theorem height_genDiscard (nextLabel : Nat) (body : Body BFNode) :
    height (insns (genDiscard nextLabel body).1) = 0 := by
  induction body generalizing nextLabel with
  | nil => rfl
  | cons node rest ih => rw [insns_cons, height_append, height_node, ih, add_zero]
  | loop body rest ihbody ih =>
    rw [insns_loop, height_append, height_append, height_append, ihbody, ih]
    rfl

theorem insns_read (nextLabel : Nat) : insns (BFNode.read.genDiscard nextLabel).1 =
    [.ldloc0, .ldloc1, .callRead, .dup, .ldcI4_0, .bge nextLabel, .ldcI4_1, .add,
      .label nextLabel, .stelemI1] := rfl

theorem insns_loopHead (label1 label2 : Nat) : insns (loopHead label1 label2) =
    [.label label1, .ldloc0, .ldloc1, .ldelemI1, .brfalse label2] := rfl

theorem insns_loopTail (label1 label2 : Nat) : insns (loopTail label1 label2) =
    [.br label1, .label label2] := rfl

theorem height_loopInsns (nextLabel : Nat) (body : Body BFNode) :
    height (loopInsns nextLabel body) = 0 := by
  rw [loopInsns, height_append, height_append, height_genDiscard]
  rfl

theorem length_loopInsns (nextLabel : Nat) (body : Body BFNode) :
    (loopInsns nextLabel body).length =
      5 + ((insns (genDiscard (nextLabel + 2) body).1).length + 2) := by
  rw [loopInsns, List.length_append, List.length_append]
  rfl

theorem jumpsIn_of_no_target {code piece : List BFInsn} {start : Int}
    (h : piece.filterMap BFInsn.target? = []) : JumpsIn code start piece := by
  rw [List.filterMap_eq_nil_iff] at h
  induction piece generalizing start with
  | nil => trivial
  | cons insn piece ih =>
    refine ⟨fun name hname => ?_, ih fun insn hinsn => h insn (List.mem_cons_of_mem _ hinsn)⟩
    rw [h insn List.mem_cons_self] at hname
    cases hname

theorem jumpsIn_node {code before behind : List BFInsn} (node : BFNode) (nextLabel : Nat)
    (hcode : code = before ++ (insns (node.genDiscard nextLabel).1 ++ behind))
    (hbefore : height before = 0) :
    JumpsIn code 0 (insns (node.genDiscard nextLabel).1) := by
  cases node with
  | write => exact jumpsIn_of_no_target rfl
  | arith count =>
    apply jumpsIn_of_no_target
    simp only [BFNode.genDiscard, genArith]
    split_ifs <;> rfl
  | move count =>
    apply jumpsIn_of_no_target
    simp only [BFNode.genDiscard, genMove]
    split_ifs <;> rfl
  | read =>
    have hlabel : HasLabel code nextLabel 3 := by
      refine ⟨before ++ [.ldloc0, .ldloc1, .callRead, .dup, .ldcI4_0, .bge nextLabel, .ldcI4_1,
        .add], .stelemI1 :: behind, ?_, ?_⟩
      · rw [hcode, List.append_assoc]
        rfl
      · rw [height_append, hbefore]
        rfl
    rw [insns_read]
    simpa [JumpsIn, BFInsn.target?, BFInsn.effect] using hlabel

theorem jumpsIn_genDiscard {code before behind : List BFInsn} (nextLabel : Nat)
    (body : Body BFNode)
    (hcode : code = before ++ (insns (genDiscard nextLabel body).1 ++ behind))
    (hbefore : height before = 0) :
    JumpsIn code 0 (insns (genDiscard nextLabel body).1) := by
  induction body generalizing nextLabel before behind with
  | nil => trivial
  | cons node rest ih =>
    have hrest := place_cons hcode
    rw [insns_cons, jumpsIn_append, height_node]
    refine ⟨jumpsIn_node node nextLabel (hrest.trans (List.append_assoc ..)) hbefore, ?_⟩
    exact ih _ hrest (by rw [height_append, height_node, hbefore]; rfl)
  | loop body rest ihbody ih =>
    have hinner := height_genDiscard (nextLabel + 2) body
    have hhead : HasLabel code nextLabel 0 :=
      ⟨before, _, (place_body hcode).trans (List.append_assoc ..), hbefore⟩
    have htail : HasLabel code (nextLabel + 1) 0 := by
      refine ⟨before ++ (insns (loopHead nextLabel (nextLabel + 1)) ++
        insns (genDiscard (nextLabel + 2) body).1) ++ [.br nextLabel], _,
          (place_tail hcode).trans (List.append_assoc _ [BFInsn.br nextLabel] _).symm, ?_⟩
      rw [height_append, height_append, height_append, hbefore, hinner]
      rfl
    rw [insns_loop, jumpsIn_append, jumpsIn_append, jumpsIn_append, hinner]
    refine ⟨?_, ?_, ?_, ?_⟩
    · rw [insns_loopHead]
      simpa [JumpsIn, BFInsn.target?, BFInsn.effect] using htail
    · exact ihbody _ (place_body hcode) (by rw [height_append, hbefore]; rfl)
    · rw [insns_loopTail]
      simpa [JumpsIn, insns_loopHead, BFInsn.target?, BFInsn.effect, height] using hhead
    · refine ih _ (place_rest hcode) ?_
      rw [height_append, height_loopInsns, hbefore]
      rfl

/-- The stack is empty between commands. -/
theorem height_commandStarts {code before behind : List BFInsn} (nextLabel : Nat)
    (body : Body BFNode)
    (hcode : code = before ++ (insns (genDiscard nextLabel body).1 ++ behind))
    (hbefore : height before = 0) {pc : Nat}
    (hpc : pc ∈ commandStarts before.length nextLabel body) : height (code.take pc) = 0 := by
  induction body generalizing nextLabel before behind with
  | nil =>
    obtain rfl := List.mem_singleton.1 hpc
    rw [hcode, List.take_left, hbefore]
  | cons node rest ih =>
    obtain rfl | hpc := List.mem_cons.1 hpc
    · rw [hcode, List.take_left, hbefore]
    · refine ih _ (place_cons hcode) ?_ ?_
      · rw [height_append, hbefore, height_node]
        rfl
      · rw [List.length_append]
        exact hpc
  | loop body rest ihbody ih =>
    obtain rfl | hpc := List.mem_cons.1 hpc
    · rw [hcode, List.take_left, hbefore]
    · obtain hpc | hpc := List.mem_append.1 hpc
      · refine ihbody _ (place_body hcode) ?_ ?_
        · rw [height_append, hbefore]
          rfl
        · rw [List.length_append]
          exact hpc
      · refine ih _ (place_rest hcode) ?_ ?_
        · rw [height_append, height_loopInsns, hbefore]
          rfl
        · rw [List.length_append, length_loopInsns]
          convert hpc using 2
          omega

end Height

end Pnet.Cscc.BF
