import Pnet.Cscc.BFCode
import Pnet.Lib.Bits

/-! What the machine does with the code of one node, and with the test and the end of a loop. -/
namespace Pnet.Cscc.BF
open Pnet.Lib Pnet.Lib.Extension

/-! ### The code of a node -/

section Machine

variable {size : MaxArraySize} {method : BFMethod}

/-- Instructions that are run one after the other, none of which jumps. -/
def straight (method : BFMethod) : List BFInsn → BFMachine → Option BFMachine
  | [], m => some m
  | insn :: piece, m => do
    let next ← insn.exec method.code m
    if next.pc = m.pc + 1 ∧ next.stack.length ≤ method.maxStack then straight method piece next
    else none

theorem step_of_exec {before behind : List BFInsn} {insn : BFInsn} {m m' : BFMachine}
    (hcode : method.code = before ++ insn :: behind) (hpc : m.pc = before.length)
    (hexec : insn.exec method.code m = some m') (hmax : m'.stack.length ≤ method.maxStack) :
    method.step m = some m' := by
  have hinsn : method.code[m.pc]? = some insn := by
    rw [hcode, hpc]
    simp
  rw [BFMethod.step, hinsn, Option.bind_eq_bind, Option.bind_some, hexec]
  exact if_pos hmax

theorem straight_cons {insn : BFInsn} {piece : List BFInsn} {m next : BFMachine}
    (hexec : insn.exec method.code m = some next) (hpc : next.pc = m.pc + 1)
    (hmax : next.stack.length ≤ method.maxStack) :
    straight method (insn :: piece) m = straight method piece next := by
  rw [straight, hexec]
  exact if_pos ⟨hpc, hmax⟩

theorem steps_straight {before piece behind : List BFInsn} {m m' : BFMachine}
    (hcode : method.code = before ++ (piece ++ behind)) (hpc : m.pc = before.length)
    (h : straight method piece m = some m') :
    steps method.step piece.length m = some m' ∧ m'.pc = (before ++ piece).length := by
  induction piece generalizing before m with
  | nil =>
    obtain rfl := Option.some.inj h
    exact ⟨rfl, by rw [List.append_nil, hpc]⟩
  | cons insn piece ih =>
    obtain ⟨next, hexec, h⟩ := Option.bind_eq_some_iff.1 h
    obtain ⟨⟨hnext, hmax⟩, h⟩ := Option.ite_none_right_eq_some.1 h
    have hstep := step_of_exec hcode hpc hexec hmax
    have hrest := @ih (before ++ [insn]) next (by rw [hcode]; simp) (by rw [hnext, hpc]; simp) h
    rw [List.length_cons, Nat.add_comm]
    refine ⟨steps_add (steps_one hstep) hrest.1, ?_⟩
    rw [hrest.2, List.append_assoc]
    rfl

/-- The machine has the array, and the head is on the tape. -/
structure Ready (size : MaxArraySize) (s : BFState) (m : BFMachine) : Prop
    extends Agrees s m where
  bfarray : m.bfarray = some size.value
  onTape : s.loc < size.value

/-- What the highest stack is that the generator has for a node. -/
def BFNode.maxHeight : BFNode → Int
  | arith count => if count = 0 then 0 else 4
  | move count => if count = 0 then 0 else 2
  | read => 5
  | write => 2

theorem exec_ldelemI1 {code : List BFInsn} {m : BFMachine} {index : ILInt32} {length : Nat}
    {stack : List BFValue} (hstack : m.stack = .int32 index :: .array length :: stack)
    (h : index.toNat < length) : BFInsn.ldelemI1.exec code m =
      some (m.advance (.int32 ((m.cells index.toNat).signExtend 32) :: stack)) := by
  unfold BFInsn.exec
  rw [hstack]
  exact if_pos h

theorem exec_stelemI1 {code : List BFInsn} {m : BFMachine} {value index : ILInt32} {length : Nat}
    {stack : List BFValue}
    (hstack : m.stack = .int32 value :: .int32 index :: .array length :: stack)
    (h : index.toNat < length) : BFInsn.stelemI1.exec code m =
      some { m.advance stack with
        cells := Function.update m.cells index.toNat (value.setWidth 8) } := by
  unfold BFInsn.exec
  rw [hstack]
  exact if_pos h

theorem straight_arith (hmax : 4 ≤ method.maxStack) {s : BFState} {m : BFMachine}
    (hready : Ready size s m) (arg : ILUInt32) {op : BFInsn}
    {apply : ILInt32 → ILInt32 → ILInt32}
    (hop : ∀ m value2 value1 stack, m.stack = .int32 value2 :: .int32 value1 :: stack →
      op.exec method.code m = some (m.advance (.int32 (apply value1 value2) :: stack))) :
    straight method [.ldloc0, .ldloc1, .ldloc0, .ldloc1, .ldelemI1, .ldcI4S arg, op, .stelemI1]
      m = some { m with
        pc := m.pc + 8
        cells := Function.update s.cells s.loc ((apply (s.cell.signExtend 32) arg).setWidth 8) }
      := by
  obtain ⟨pc, stack, bfarray, bfarrayloc, cells, input, events⟩ := m
  obtain ⟨⟨hcells, hloc, hinput, hevents, hstack⟩, harray, hrange⟩ := hready
  dsimp only at hcells hloc hinput hevents hstack harray
  subst hcells hstack harray
  have hlt : bfarrayloc.toNat < size.value := hloc ▸ hrange
  refine (straight_cons rfl rfl (by simp [BFMachine.advance]; omega)).trans ?_
  refine (straight_cons rfl rfl (by simp [BFMachine.advance]; omega)).trans ?_
  refine (straight_cons rfl rfl (by simp [BFMachine.advance]; omega)).trans ?_
  refine (straight_cons rfl rfl (by simp [BFMachine.advance]; omega)).trans ?_
  refine (straight_cons (exec_ldelemI1 rfl hlt) rfl (by simp [BFMachine.advance]; omega)).trans ?_
  refine (straight_cons rfl rfl (by simp [BFMachine.advance]; omega)).trans ?_
  refine (straight_cons (hop _ _ _ _ rfl) rfl (by simp [BFMachine.advance]; omega)).trans ?_
  refine (straight_cons (exec_stelemI1 rfl hlt) rfl (by simp [BFMachine.advance]; omega)).trans ?_
  rw [straight, hloc]
  rfl

theorem straight_move (hmax : 2 ≤ method.maxStack) {m : BFMachine} (hstack : m.stack = [])
    (arg : ILUInt32) {op : BFInsn} {apply : ILInt32 → ILInt32 → ILInt32}
    (hop : ∀ m value2 value1 stack, m.stack = .int32 value2 :: .int32 value1 :: stack →
      op.exec method.code m = some (m.advance (.int32 (apply value1 value2) :: stack))) :
    straight method [.ldloc1, .ldcI4S arg, op, .stloc1] m =
      some { m with pc := m.pc + 4, bfarrayloc := apply m.bfarrayloc arg } := by
  obtain ⟨pc, stack, bfarray, bfarrayloc, cells, input, events⟩ := m
  dsimp only at hstack
  subst hstack
  refine (straight_cons rfl rfl (by simp [BFMachine.advance]; omega)).trans ?_
  refine (straight_cons rfl rfl (by simp [BFMachine.advance]; omega)).trans ?_
  refine (straight_cons (hop _ _ _ _ rfl) rfl (by simp [BFMachine.advance]; omega)).trans ?_
  exact straight_cons rfl rfl (by simp; omega)

theorem straight_write (hmax : 2 ≤ method.maxStack) {s : BFState} {m : BFMachine}
    (hready : Ready size s m) :
    straight method [.ldloc0, .ldloc1, .ldelemI1, .callWrite] m = some { m with
      pc := m.pc + 4
      events := s.events ++ [.write ((s.cell.signExtend 32).setWidth 16)] } := by
  obtain ⟨pc, stack, bfarray, bfarrayloc, cells, input, events⟩ := m
  obtain ⟨⟨hcells, hloc, hinput, hevents, hstack⟩, harray, hrange⟩ := hready
  dsimp only at hcells hloc hinput hevents hstack harray
  subst hcells hstack harray hevents
  have hlt : bfarrayloc.toNat < size.value := hloc ▸ hrange
  refine (straight_cons rfl rfl (by simp [BFMachine.advance]; omega)).trans ?_
  refine (straight_cons rfl rfl (by simp [BFMachine.advance]; omega)).trans ?_
  refine (straight_cons (exec_ldelemI1 rfl hlt) rfl (by simp [BFMachine.advance]; omega)).trans ?_
  refine (straight_cons rfl rfl (by simp [BFMachine.advance]; omega)).trans ?_
  rw [straight, BFState.cell, ← hloc]
  rfl

/-- The end of the input is -1, to which 1 is added. -/
theorem straight_readEnd (hmax : 5 ≤ method.maxStack) {s : BFState} {m : BFMachine}
    (hready : Ready size s m) (hinput : s.input = []) (label1 : Nat) :
    straight method [.ldloc0, .ldloc1, .callRead, .dup, .ldcI4_0, .bge label1, .ldcI4_1, .add,
      .label label1, .stelemI1] m = some { m with
        pc := m.pc + 10
        cells := Function.update s.cells s.loc 0
        events := s.events ++ [.read none] } := by
  obtain ⟨pc, stack, bfarray, bfarrayloc, cells, input, events⟩ := m
  obtain ⟨⟨hcells, hloc, hinput', hevents, hstack⟩, harray, hrange⟩ := hready
  dsimp only at hcells hloc hinput' hevents hstack harray
  rw [hinput] at hinput'
  subst hcells hstack harray hevents hinput'
  have hlt : bfarrayloc.toNat < size.value := hloc ▸ hrange
  refine (straight_cons rfl rfl (by simp [BFMachine.advance]; omega)).trans ?_
  refine (straight_cons rfl rfl (by simp [BFMachine.advance]; omega)).trans ?_
  refine (straight_cons rfl rfl (by simp [BFMachine.advance]; omega)).trans ?_
  refine (straight_cons rfl rfl (by simp [BFMachine.advance]; omega)).trans ?_
  refine (straight_cons rfl rfl (by simp [BFMachine.advance]; omega)).trans ?_
  refine (straight_cons rfl rfl (by simp [BFMachine.advance]; omega)).trans ?_
  refine (straight_cons rfl rfl (by simp [BFMachine.advance]; omega)).trans ?_
  refine (straight_cons rfl rfl (by simp [BFMachine.advance]; omega)).trans ?_
  refine (straight_cons rfl rfl (by simp [BFMachine.advance]; omega)).trans ?_
  refine (straight_cons (exec_stelemI1 rfl hlt) rfl (by simp [BFMachine.advance]; omega)).trans ?_
  rw [straight, hloc]
  rfl

theorem exec_bge {code : List BFInsn} {name : Nat} {m : BFMachine} {value1 value2 : ILInt32}
    {stack : List BFValue} (hstack : m.stack = .int32 value2 :: .int32 value1 :: stack)
    (h : value2.sle value1 = true) :
    (BFInsn.bge name).exec code m = some (m.jump code name stack) := by
  unfold BFInsn.exec
  rw [hstack]
  exact if_pos h

theorem sle_setWidth (char : ILUInt16) : (0 : ILInt32).sle (char.setWidth 32) = true := by
  have hnat : (char.setWidth 32).toNat = char.toNat := BitVec.toNat_setWidth_of_le (by decide)
  have hint : (char.setWidth 32).toInt = (char.setWidth 32).toNat :=
    BitVec.toInt_eq_toNat_of_lt (by omega)
  rw [BitVec.sle_eq_decide, decide_eq_true_eq, hint]
  exact Int.natCast_nonneg _

/-- A character is not less than 0. -/
theorem steps_readChar (hnodup : (labels method.code).Nodup) (hmax : 5 ≤ method.maxStack)
    {before behind : List BFInsn} {label1 : Nat}
    (hcode : method.code = before ++ (insns (BFNode.read.genDiscard label1).1 ++ behind))
    {s : BFState} {m : BFMachine} (hready : Ready size s m) (hpc : m.pc = before.length)
    {char : ILUInt16} {input : List ILUInt16} (hinput : s.input = char :: input) :
    steps method.step 8 m = some { m with
      pc := m.pc + 10
      cells := Function.update s.cells s.loc (char.setWidth 8)
      input := input
      events := s.events ++ [.read (some char)] } := by
  obtain ⟨pc, stack, bfarray, bfarrayloc, cells, input', events⟩ := m
  obtain ⟨⟨hcells, hloc, hinput', hevents, hstack⟩, harray, hrange⟩ := hready
  dsimp only at hcells hloc hinput' hevents hstack harray hpc
  rw [hinput] at hinput'
  subst hcells hstack harray hevents hinput' hpc
  have hlt : bfarrayloc.toNat < size.value := hloc ▸ hrange
  let first : List BFInsn := [.ldloc0, .ldloc1, .callRead, .dup, .ldcI4_0]
  let second : List BFInsn := [.bge label1, .ldcI4_1, .add]
  rw [insns_read] at hcode
  have hcode1 : method.code = before ++ (first ++ (.bge label1 :: (.ldcI4_1 :: .add ::
      .label label1 :: .stelemI1 :: behind))) := hcode
  have hcode2 : method.code = before ++ (first ++ second) ++
      ([.label label1, .stelemI1] ++ behind) := by
    rw [hcode]
    simp [first, second]
  have hstraight1 : straight method first ⟨before.length, [], some size.value, bfarrayloc, s.cells,
      char :: input, s.events⟩ = some ⟨before.length + 5,
        [.int32 0, .int32 (char.setWidth 32), .int32 (char.setWidth 32), .int32 bfarrayloc,
          .array size.value], some size.value, bfarrayloc, s.cells, input,
            s.events ++ [.read (some char)]⟩ := by
    refine (straight_cons rfl rfl (by simp [BFMachine.advance]; omega)).trans ?_
    refine (straight_cons rfl rfl (by simp [BFMachine.advance]; omega)).trans ?_
    refine (straight_cons rfl rfl (by simp [BFMachine.advance]; omega)).trans ?_
    refine (straight_cons rfl rfl (by simp [BFMachine.advance]; omega)).trans ?_
    exact straight_cons rfl rfl (by simp; omega)
  have hfirst := steps_straight hcode1 rfl hstraight1
  have hjump : method.code.idxOf (.label label1) = before.length + 8 := by
    rw [idxOf_label hnodup hcode2, List.length_append]
    rfl
  have hstep := step_of_exec (hcode1.trans (List.append_assoc ..).symm) hfirst.2
    (exec_bge rfl (sle_setWidth char)) (by simp [BFMachine.jump]; omega)
  have hstraight2 : straight method [.label label1, .stelemI1] ⟨before.length + 8,
      [.int32 (char.setWidth 32), .int32 bfarrayloc, .array size.value], some size.value,
        bfarrayloc, s.cells, input, s.events ++ [.read (some char)]⟩ =
          some ⟨before.length + 10, [], some size.value, bfarrayloc,
            Function.update s.cells s.loc (char.setWidth 8), input,
              s.events ++ [.read (some char)]⟩ := by
    refine (straight_cons rfl rfl (by simp [BFMachine.advance]; omega)).trans ?_
    refine (straight_cons (exec_stelemI1 rfl hlt) rfl (by simp [BFMachine.advance]; omega)).trans ?_
    rw [straight, hloc, BitVec.setWidth_setWidth_of_le _ (by decide)]
    rfl
  have hsecond := steps_straight hcode2 (by simp [first, second]) hstraight2
  simp only [BFMachine.jump, hjump] at hstep
  exact steps_add hfirst.1 (steps_add (steps_one hstep) hsecond.1)

/-! The counts that are put out. A cell takes its count modulo 256, which is not lost. -/

theorem low_shortArg (count : ILInt32) :
    (count &&& (0xFFFF : ILUInt32)).setWidth 8 = count.setWidth 8 := by
  have hmask : (0xFFFF : ILUInt32).setWidth 8 = BitVec.allOnes 8 := by decide
  rw [BitVec.setWidth_and, hmask, BitVec.and_allOnes]

theorem low_add (x : ILUInt8) (count : ILInt32) :
    (x.signExtend 32 + (count &&& 0xFFFF)).setWidth 8 = x + count.setWidth 8 := by
  rw [BitVec.setWidth_add _ _ (by decide), low_shortArg, setWidth_signExtend x (by decide)
    (by decide), BitVec.setWidth_eq]

theorem low_sub (x : ILUInt8) (count : ILInt32) :
    (x.signExtend 32 - (-count &&& 0xFFFF)).setWidth 8 = x + count.setWidth 8 := by
  rw [BitVec.sub_eq_add_neg, BitVec.setWidth_add _ _ (by decide),
    BitVec.setWidth_neg_of_le (by decide), low_shortArg, BitVec.setWidth_neg_of_le (by decide),
    BitVec.neg_neg, setWidth_signExtend x (by decide) (by decide), BitVec.setWidth_eq]

theorem shortArg_of_lt {count : ILInt32} (h : count.toNat < 0x10000) :
    count &&& (0xFFFF : ILUInt32) = count := by
  apply BitVec.eq_of_toNat_eq
  rw [Bits.toNat_and_mask count 0xFFFF 16 rfl]
  exact Nat.mod_eq_of_lt h

theorem toNat_add_toInt {loc count : ILInt32} (hle : 0 ≤ (loc.toNat : Int) + count.toInt)
    (hlt : (loc.toNat : Int) + count.toInt < 2 ^ 31) :
    (loc + count).toNat = ((loc.toNat : Int) + count.toInt).toNat := by
  rw [BitVec.toNat_add]
  have hint := BitVec.toInt_eq_toNat_cond count
  split_ifs at hint <;> omega

/-- What a node must not do. -/
def BFNode.FitsAt (node : BFNode) (s : BFState) : Prop :=
  match node with
  | move count => count.toInt.natAbs < 0x10000
  | write => s.cell < 0x80
  | _ => True

theorem char_of_cell {x : ILUInt8} (h : x < 0x80) :
    (x.signExtend 32).setWidth 16 = x.setWidth 16 := by
  have hlt : x.toNat < 128 := h
  have hmsb : x.msb = false := BitVec.msb_eq_false_iff_two_mul_lt.2 (by omega)
  rw [BitVec.signExtend_eq_setWidth_of_msb_false hmsb]
  exact BitVec.setWidth_setWidth_of_le _ (by decide)

theorem exec_add {code : List BFInsn} (m : BFMachine) (value2 value1 : ILInt32)
    (stack : List BFValue) (hstack : m.stack = .int32 value2 :: .int32 value1 :: stack) :
    BFInsn.add.exec code m = some (m.advance (.int32 (value1 + value2) :: stack)) := by
  unfold BFInsn.exec
  rw [hstack]

theorem exec_sub {code : List BFInsn} (m : BFMachine) (value2 value1 : ILInt32)
    (stack : List BFValue) (hstack : m.stack = .int32 value2 :: .int32 value1 :: stack) :
    BFInsn.sub.exec code m = some (m.advance (.int32 (value1 - value2) :: stack)) := by
  unfold BFInsn.exec
  rw [hstack]

/-- The instructions for a count that is not 0. -/
theorem insns_arith {count : ILInt32} (h : count ≠ 0) (nextLabel : Nat) :
    insns (BFNode.arith count |>.genDiscard nextLabel).1 =
      if (0 : ILInt32).slt count then [.ldloc0, .ldloc1, .ldloc0, .ldloc1, .ldelemI1,
        .ldcI4S (count &&& 0xFFFF), .add, .stelemI1]
      else [.ldloc0, .ldloc1, .ldloc0, .ldloc1, .ldelemI1,
        .ldcI4S (-count &&& 0xFFFF), .sub, .stelemI1] := by
  simp only [BFNode.genDiscard, genArith, if_neg h]
  split_ifs <;> rfl

theorem insns_move {count : ILInt32} (h : count ≠ 0) (nextLabel : Nat) :
    insns (BFNode.move count |>.genDiscard nextLabel).1 =
      if (0 : ILInt32).slt count then [.ldloc1, .ldcI4S (count &&& 0xFFFF), .add, .stloc1]
      else [.ldloc1, .ldcI4S (-count &&& 0xFFFF), .sub, .stloc1] := by
  simp only [BFNode.genDiscard, genMove, if_neg h]
  split_ifs <;> rfl

/-- The code of a count that is not 0, whatever its sign. -/
theorem straight_arithCount (hmax : 4 ≤ method.maxStack) {s : BFState} {m : BFMachine}
    (hready : Ready size s m) {count : ILInt32} (hcount : count ≠ 0) (nextLabel : Nat) :
    straight method (insns (BFNode.arith count |>.genDiscard nextLabel).1) m = some { m with
      pc := m.pc + 8
      cells := Function.update s.cells s.loc (s.cell + count.setWidth 8) } := by
  rw [insns_arith hcount]
  split_ifs
  · rw [straight_arith hmax hready _ exec_add, low_add]
  · rw [straight_arith hmax hready _ exec_sub, low_sub]

theorem straight_moveCount (hmax : 2 ≤ method.maxStack) {m : BFMachine} (hstack : m.stack = [])
    {count : ILInt32} (hcount : count ≠ 0) (hfits : count.toInt.natAbs < 0x10000)
    (nextLabel : Nat) :
    straight method (insns (BFNode.move count |>.genDiscard nextLabel).1) m = some { m with
      pc := m.pc + 4
      bfarrayloc := m.bfarrayloc + count } := by
  have hint := BitVec.toInt_eq_toNat_cond count
  rw [insns_move hcount, BitVec.slt_eq_decide]
  split_ifs with hpos
  · have hpos : 0 < count.toInt := of_decide_eq_true hpos
    have hlt : count.toNat < 0x10000 := by
      split_ifs at hint <;> omega
    rw [straight_move hmax hstack _ exec_add, shortArg_of_lt hlt]
  · have hnonpos : ¬ 0 < count.toInt := fun h => hpos (decide_eq_true h)
    have hlt : (-count).toNat < 0x10000 := by
      rw [BitVec.toNat_neg]
      split_ifs at hint <;> omega
    rw [straight_move hmax hstack _ exec_sub, shortArg_of_lt hlt, BitVec.sub_eq_add_neg,
      BitVec.neg_neg]

/-- The code of a node does what the node stands for. -/
theorem node_runs (hnodup : (labels method.code).Nodup) {before behind : List BFInsn}
    {node : BFNode} {nextLabel : Nat}
    (hcode : method.code = before ++ (insns (node.genDiscard nextLabel).1 ++ behind))
    (hmax : node.maxHeight ≤ method.maxStack) {s s' : BFState} {m : BFMachine}
    (hready : Ready size s m) (hpc : m.pc = before.length) (hexec : node.exec size s = some s')
    (hfits : node.FitsAt s) :
    ∃ k m', steps method.step k m = some m' ∧ Ready size s' m' ∧
      m'.pc = (before ++ insns (node.genDiscard nextLabel).1).length := by
  cases node with
  | arith count =>
    cases hexec
    by_cases hzero : count = 0
    · have hinsns : insns (BFNode.arith count |>.genDiscard nextLabel).1 = [] := by
        rw [hzero]
        rfl
      have hsame : (s.flush.setCell (s.cell + count.setWidth 8)).cells = s.cells := by
        rw [hzero]
        exact (congrArg (Function.update s.cells s.loc) (BitVec.add_zero _)).trans
          (Function.update_eq_self ..)
      refine ⟨0, m, rfl, ?_, by rw [hinsns, List.append_nil, hpc]⟩
      exact { hready with cells := hready.cells.trans hsame.symm }
    · have hstraight := straight_arithCount (by rwa [BFNode.maxHeight, if_neg hzero] at hmax)
        hready hzero nextLabel
      have hsteps := steps_straight hcode hpc hstraight
      refine ⟨_, _, hsteps.1, ?_, hsteps.2⟩
      exact { hready with cells := rfl }
  | move count =>
    obtain ⟨hloc, hexec⟩ := Option.ite_none_right_eq_some.1 hexec
    cases hexec
    have hlt := size.lt_max
    have hfrom := hready.loc
    by_cases hzero : count = 0
    · subst hzero
      have hinsns : insns (BFNode.move 0 |>.genDiscard nextLabel).1 = [] := rfl
      refine ⟨0, m, rfl, ?_, by rw [hinsns, List.append_nil, hpc]⟩
      exact { hready with
        loc := by rw [hfrom]; exact (Int.toNat_natCast s.loc).symm
        onTape := by dsimp only; omega }
    · have hstraight := straight_moveCount (by rwa [BFNode.maxHeight, if_neg hzero] at hmax)
        hready.stack hzero hfits nextLabel
      have hsteps := steps_straight hcode hpc hstraight
      refine ⟨_, _, hsteps.1, ?_, hsteps.2⟩
      exact { hready with
        loc := by
          dsimp only
          rw [toNat_add_toInt (by omega) (by omega), hfrom]
        onTape := by dsimp only; omega }
  | read =>
    cases hexec
    cases hinput : s.input with
    | nil =>
      have hsteps := steps_straight hcode hpc (straight_readEnd hmax hready hinput nextLabel)
      have hread : s.flush.read = { s.flush.setCell 0 with
          events := s.events ++ [.read none] } := by
        unfold BFState.read
        rw [show s.flush.input = [] from hinput]
        rfl
      refine ⟨_, _, hsteps.1, ?_, hsteps.2⟩
      rw [hread]
      exact { hready with cells := rfl, events := rfl }
    | cons char input =>
      have hsteps := steps_readChar hnodup hmax hcode hready hpc hinput
      have hread : s.flush.read = { s.flush.setCell (char.setWidth 8) with
          input := input, events := s.events ++ [.read (some char)] } := by
        unfold BFState.read
        rw [show s.flush.input = char :: input from hinput]
        rfl
      refine ⟨_, _, hsteps, ?_, ?_⟩
      · rw [hread]
        exact { hready with cells := rfl, input := rfl, events := rfl }
      · rw [hpc, List.length_append]
        rfl
  | write =>
    cases hexec
    have hsteps := steps_straight hcode hpc (straight_write hmax hready)
    refine ⟨_, _, hsteps.1, ?_, hsteps.2⟩
    exact { hready with events := by rw [char_of_cell hfits]; rfl }

/-! ### The code of a loop -/

theorem signExtend_eq_zero (x : ILUInt8) : x.signExtend 32 = 0 ↔ x = 0 := by
  constructor
  · intro h
    have hlow := setWidth_signExtend (u := 8) (v := 32) x (by decide) (by decide)
    rw [h, BitVec.setWidth_eq] at hlow
    exact hlow.symm
  · rintro rfl
    rfl

theorem exec_brfalse {code : List BFInsn} {name : Nat} {m : BFMachine} {value : ILInt32}
    {stack : List BFValue} (hstack : m.stack = .int32 value :: stack) :
    (BFInsn.brfalse name).exec code m =
      some (if value = 0 then m.jump code name stack else m.advance stack) := by
  unfold BFInsn.exec
  rw [hstack]
  split_ifs with hzero
  · exact if_pos hzero
  · exact if_neg hzero

/-- The test of a loop: the code goes on in the body, or behind the loop. -/
theorem test_runs (hnodup : (labels method.code).Nodup) (hmax : 2 ≤ method.maxStack)
    {before behind : List BFInsn} {nextLabel : Nat} {body rest : Body BFNode}
    (hcode : method.code =
      before ++ (insns (genDiscard nextLabel (.loop body rest)).1 ++ behind))
    {s : BFState} {m : BFMachine} (hready : Ready size s m) (hpc : m.pc = before.length) :
    ∃ k m', 1 ≤ k ∧ steps method.step k m = some m' ∧ Ready size s.flush m' ∧
      m'.pc = if s.cell = 0 then (before ++ loopInsns nextLabel body).length
        else (before ++ insns (loopHead nextLabel (nextLabel + 1))).length := by
  obtain ⟨pc, stack, bfarray, bfarrayloc, cells, input, events⟩ := m
  obtain ⟨⟨hcells, hloc, hinput, hevents, hstack⟩, harray, hrange⟩ := hready
  dsimp only at hcells hloc hinput hevents hstack harray hpc
  subst hcells hstack harray hevents hinput hpc
  have hlt : bfarrayloc.toNat < size.value := hloc ▸ hrange
  let head : List BFInsn := [.label nextLabel, .ldloc0, .ldloc1, .ldelemI1]
  have hplace := place_body hcode
  rw [insns_loopHead, List.append_assoc] at hplace
  have hcode1 : method.code = before ++ (head ++ (.brfalse (nextLabel + 1) ::
      (insns (genDiscard (nextLabel + 2) body).1 ++
        (insns (loopTail nextLabel (nextLabel + 1)) ++
          (insns (genDiscard (genDiscard (nextLabel + 2) body).2 rest).1 ++ behind))))) := hplace
  have hstraight : straight method head ⟨before.length, [], some size.value, bfarrayloc, s.cells,
      s.input, s.events⟩ = some ⟨before.length + 4, [.int32 (s.cell.signExtend 32)],
        some size.value, bfarrayloc, s.cells, s.input, s.events⟩ := by
    refine (straight_cons rfl rfl (by simp [BFMachine.advance]; omega)).trans ?_
    refine (straight_cons rfl rfl (by simp [BFMachine.advance]; omega)).trans ?_
    refine (straight_cons rfl rfl (by simp [BFMachine.advance]; omega)).trans ?_
    refine (straight_cons (exec_ldelemI1 rfl hlt) rfl (by simp [BFMachine.advance]; omega)).trans ?_
    rw [straight, BFState.cell, ← hloc]
    rfl
  have hhead := steps_straight hcode1 rfl hstraight
  have hexec := @exec_brfalse method.code (nextLabel + 1) ⟨before.length + 4,
    [.int32 (s.cell.signExtend 32)], some size.value, bfarrayloc, s.cells, s.input, s.events⟩
      _ _ rfl
  by_cases hzero : s.cell = 0
  · have htail : method.code = before ++ (insns (loopHead nextLabel (nextLabel + 1)) ++
        insns (genDiscard (nextLabel + 2) body).1) ++ [.br nextLabel] ++
          (.label (nextLabel + 1) ::
            (insns (genDiscard (genDiscard (nextLabel + 2) body).2 rest).1 ++ behind)) :=
      (place_tail hcode).trans (List.append_assoc _ [BFInsn.br nextLabel] _).symm
    have hlabel := idxOf_label hnodup htail
    rw [if_pos ((signExtend_eq_zero _).2 hzero)] at hexec
    have hjump := step_of_exec (hcode1.trans (List.append_assoc ..).symm) hhead.2 hexec
      (by simp [BFMachine.jump]; omega)
    have hbehind := step_of_exec htail (m := BFMachine.jump ⟨before.length + 4,
      [.int32 (s.cell.signExtend 32)], some size.value, bfarrayloc, s.cells, s.input, s.events⟩
        method.code (nextLabel + 1) []) hlabel rfl
          (by simp [BFMachine.advance, BFMachine.jump]; omega)
    refine ⟨_, _, ?_, steps_add hhead.1 (steps_add (steps_one hjump) (steps_one hbehind)), ?_, ?_⟩
    · omega
    · exact ⟨⟨rfl, hloc, rfl, rfl, rfl⟩, rfl, hrange⟩
    · rw [if_pos hzero]
      refine (congrArg (· + 1) hlabel).trans ?_
      simp only [loopInsns, insns_loopTail, List.length_append, List.length_cons, List.length_nil]
      omega
  · rw [if_neg fun h => hzero ((signExtend_eq_zero _).1 h)] at hexec
    have hstep := step_of_exec (hcode1.trans (List.append_assoc ..).symm) hhead.2 hexec
      (by simp [BFMachine.advance]; omega)
    refine ⟨_, _, ?_, steps_add hhead.1 (steps_one hstep), ?_, ?_⟩
    · omega
    · exact ⟨⟨rfl, hloc, rfl, rfl, rfl⟩, rfl, hrange⟩
    · rw [if_neg hzero, List.length_append]
      rfl

/-- The end of a loop goes back to its test. -/
theorem tail_runs (hnodup : (labels method.code).Nodup) (hmax : 0 ≤ method.maxStack)
    {before behind : List BFInsn} {nextLabel : Nat} {body rest : Body BFNode}
    (hcode : method.code =
      before ++ (insns (genDiscard nextLabel (.loop body rest)).1 ++ behind))
    {s : BFState} {m : BFMachine} (hready : Ready size s m)
    (hpc : m.pc = (before ++ (insns (loopHead nextLabel (nextLabel + 1)) ++
      insns (genDiscard (nextLabel + 2) body).1)).length) :
    ∃ m', steps method.step 1 m = some m' ∧ Ready size s m' ∧ m'.pc = before.length := by
  have hlabel := idxOf_label hnodup ((place_body hcode).trans (List.append_assoc ..))
  have hstep := step_of_exec (place_tail hcode) hpc rfl (by
    rw [hready.stack]
    exact hmax)
  exact ⟨_, steps_one hstep, { hready with stack := hready.stack }, hlabel⟩

end Machine

end Pnet.Cscc.BF
