import Pnet.CTypes
import Pnet.Lib.LoopProgram

/-! The compiler `cscc/bf`: the nodes of `bf_grammar.y`, the merging of `bf_optimize.c`, the code
of `bf_codegen.tc`, and the machine that runs it. -/
namespace Pnet.Cscc.BF
open Pnet.Lib

/-! ### Programs -/

inductive BFCommand where
  | prev | next | plus | minus | read | write
deriving DecidableEq, Repr

/-- The nodes but for loops. -/
inductive BFNode where
  | arith (count : ILInt32)
  | move (count : ILInt32)
  | read
  | write
deriving DecidableEq, Repr

/-- What the grammar creates. -/
def BFCommand.create : BFCommand → BFNode
  | plus => .arith 1
  | minus => .arith (-1)
  | read => .read
  | write => .write
  | next => .move 1
  | prev => .move (-1)

/-- Two `BFOpt` nodes of one kind are merged. -/
def BFNode.merge : BFNode → BFNode → Option BFNode
  | arith count1, arith count2 => some (arith (count1 + count2))
  | move count1, move count2 => some (move (count1 + count2))
  | _, _ => none

/-- The new list, from the item `lastItem` on that has not been added to it yet. A loop is never
merged, so it is added at once. -/
def bfOptimize : Option BFNode → Body BFNode → Body BFNode
  | lastItem, .nil => lastItem.elim .nil fun last => .cons last .nil
  | none, .cons item rest => bfOptimize (some item) rest
  | some last, .cons item rest =>
    match last.merge item with
    | some both => bfOptimize (some both) rest
    | none => .cons last (bfOptimize (some item) rest)
  | lastItem, .loop body rest =>
    let loop := .loop (bfOptimize none body) (bfOptimize none rest)
    lastItem.elim loop fun last => .cons last loop

/-! ### Code -/

inductive BFInsn where
  | label (label : Nat)
  | ldcI4 (arg : ILUInt32)
  | ldcI4S (arg : ILUInt32)
  | ldcI4_0 | ldcI4_1
  | newarr
  | ldloc0 | ldloc1 | stloc0 | stloc1
  | ldelemI1 | stelemI1
  | dup | add | sub
  | br (label : Nat)
  | brfalse (label : Nat)
  | bge (label : Nat)
  | callRead | callWrite
  | ret
deriving DecidableEq, Repr

/-- What a generator does: put out an instruction, or `ILGenAdjust`. -/
inductive GenOp where
  | insn (insn : BFInsn)
  | adjust (amount : Int)
deriving DecidableEq, Repr

/-- The operand is printed as a short one, whatever the instruction takes. -/
def ilGenShortInsn (insn : ILUInt32 → BFInsn) (arg : ILUInt32) : GenOp :=
  .insn (insn (arg &&& 0xFFFF))

def genArith (count : ILInt32) : List GenOp :=
  if count = 0 then []
  else
    [.insn .ldloc0, .insn .ldloc1, .adjust 2, .insn .ldloc0, .insn .ldloc1, .adjust 2,
      .insn .ldelemI1, .adjust (-1)] ++
    (if (0 : ILInt32).slt count then
      [ilGenShortInsn .ldcI4S count, .adjust 1, .insn .add, .adjust (-1)]
    else
      [ilGenShortInsn .ldcI4S (-count), .adjust 1, .insn .sub, .adjust (-1)]) ++
    [.insn .stelemI1, .adjust (-3)]

def genMove (count : ILInt32) : List GenOp :=
  if count = 0 then []
  else
    [.insn .ldloc1] ++
    (if (0 : ILInt32).slt count then
      [ilGenShortInsn .ldcI4S count, .adjust 2, .insn .add]
    else
      [ilGenShortInsn .ldcI4S (-count), .adjust 2, .insn .sub]) ++
    [.adjust (-1), .insn .stloc1, .adjust (-1)]

def genRead (label1 : Nat) : List GenOp :=
  [.insn .ldloc0, .insn .ldloc1, .insn .callRead, .adjust 3,
    .insn .dup, .insn .ldcI4_0, .adjust 2, .insn (.bge label1), .adjust (-2),
    -- result is -1
    .insn .ldcI4_1, .adjust 1, .insn .add, .adjust (-1),
    .insn (.label label1), .insn .stelemI1, .adjust (-3)]

def genWrite : List GenOp :=
  [.insn .ldloc0, .insn .ldloc1, .adjust 2, .insn .ldelemI1, .adjust (-1),
    .insn .callWrite, .adjust (-1)]

/-- The code of a node, and the next label. -/
def BFNode.genDiscard (nextLabel : Nat) : BFNode → List GenOp × Nat
  | arith count => (genArith count, nextLabel)
  | move count => (genMove count, nextLabel)
  | read => (genRead nextLabel, nextLabel + 1)
  | write => (genWrite, nextLabel)

def loopHead (label1 label2 : Nat) : List GenOp :=
  [.insn (.label label1), .insn .ldloc0, .insn .ldloc1, .insn .ldelemI1, .insn (.brfalse label2)]

def loopTail (label1 label2 : Nat) : List GenOp := [.insn (.br label1), .insn (.label label2)]

/-- The code of a list of nodes, and the next label. -/
def genDiscard (nextLabel : Nat) : Body BFNode → List GenOp × Nat
  | .nil => ([], nextLabel)
  | .cons node rest =>
    let head := node.genDiscard nextLabel
    let tail := genDiscard head.2 rest
    (head.1 ++ tail.1, tail.2)
  | .loop body rest =>
    let inner := genDiscard (nextLabel + 2) body
    let tail := genDiscard inner.2 rest
    (loopHead nextLabel (nextLabel + 1) ++ (inner.1 ++
      (loopTail nextLabel (nextLabel + 1) ++ tail.1)), tail.2)

/-- `maxArraySize`, an `int` that is 8000 unless an option gives a value of at least 8. -/
structure MaxArraySize where
  value : Nat
  eight_le : 8 ≤ value
  lt_max : value < 2 ^ 31

/-- The array, and the head in its middle. -/
def genLocals (size : MaxArraySize) : List GenOp :=
  [.insn (.ldcI4 (BitVec.ofNat 32 size.value)), .adjust 1, .insn .newarr, .insn .stloc0,
    .adjust (-1), .insn (.ldcI4 (BitVec.ofNat 32 (size.value / 2))), .adjust 1, .insn .stloc1,
    .adjust (-1)]

def genProgram (size : MaxArraySize) (body : Body BFNode) : List GenOp :=
  genLocals size ++ ((genDiscard 1 body).1 ++ [.insn .ret])

def GenOp.insn? : GenOp → Option BFInsn
  | insn output => some output
  | adjust _ => none

/-- `stackHeight` and `maxStackHeight` -/
def GenOp.adjustHeight (heights : Int × Int) : GenOp → Int × Int
  | insn _ => heights
  | adjust amount => (heights.1 + amount, max heights.2 (heights.1 + amount))

/-- The method that is put out. -/
structure BFMethod where
  code : List BFInsn
  maxStack : Int

def compile (size : MaxArraySize) (program : Body BFCommand) : BFMethod :=
  let ops := genProgram size (bfOptimize none (program.map BFCommand.create))
  { code := ops.filterMap GenOp.insn?, maxStack := (ops.foldl GenOp.adjustHeight (0, 0)).2 }

/-! ### The machine -/

/-- A read of a character, or at the end of the input, and a write. -/
inductive BFEvent where
  | read (char : Option ILUInt16)
  | write (char : ILUInt16)
deriving DecidableEq, Repr

/-- There is only one array, of which a reference has the length. -/
inductive BFValue where
  | int32 (value : ILInt32)
  | array (length : Nat)
deriving DecidableEq, Repr

structure BFMachine where
  pc : Nat
  stack : List BFValue
  bfarray : Option Nat
  bfarrayloc : ILInt32
  cells : Nat → ILUInt8
  input : List ILUInt16
  events : List BFEvent

namespace BFMachine

def start (input : List ILUInt16) : BFMachine :=
  { pc := 0, stack := [], bfarray := none, bfarrayloc := 0, cells := fun _ => 0, input := input,
    events := [] }

/-- Go on behind the instruction with another stack. -/
def advance (m : BFMachine) (stack : List BFValue) : BFMachine :=
  { m with pc := m.pc + 1, stack := stack }

def jump (m : BFMachine) (code : List BFInsn) (label : Nat) (stack : List BFValue) : BFMachine :=
  { m with pc := code.idxOf (.label label), stack := stack }

end BFMachine

def BFInsn.exec (code : List BFInsn) (insn : BFInsn) (m : BFMachine) : Option BFMachine :=
  match insn, m.stack with
  | label _, stack => some (m.advance stack)
  | ldcI4 arg, stack | ldcI4S arg, stack => some (m.advance (.int32 arg :: stack))
  | ldcI4_0, stack => some (m.advance (.int32 0 :: stack))
  | ldcI4_1, stack => some (m.advance (.int32 1 :: stack))
  | newarr, .int32 length :: stack =>
    if length.toInt < 0 then none
    else some { m.advance (.array length.toNat :: stack) with cells := fun _ => 0 }
  | ldloc0, stack => m.bfarray.map fun length => m.advance (.array length :: stack)
  | ldloc1, stack => some (m.advance (.int32 m.bfarrayloc :: stack))
  | stloc0, .array length :: stack => some { m.advance stack with bfarray := some length }
  | stloc1, .int32 value :: stack => some { m.advance stack with bfarrayloc := value }
  | ldelemI1, .int32 index :: .array length :: stack =>
    if index.toNat < length then
      some (m.advance (.int32 ((m.cells index.toNat).signExtend 32) :: stack))
    else none
  | stelemI1, .int32 value :: .int32 index :: .array length :: stack =>
    if index.toNat < length then
      some { m.advance stack with
        cells := Function.update m.cells index.toNat (value.setWidth 8) }
    else none
  | dup, value :: stack => some (m.advance (value :: value :: stack))
  | add, .int32 value2 :: .int32 value1 :: stack =>
    some (m.advance (.int32 (value1 + value2) :: stack))
  | sub, .int32 value2 :: .int32 value1 :: stack =>
    some (m.advance (.int32 (value1 - value2) :: stack))
  | br target, stack => some (m.jump code target stack)
  | brfalse target, .int32 value :: stack =>
    if value = 0 then some (m.jump code target stack)
    else some (m.advance stack)
  | bge target, .int32 value2 :: .int32 value1 :: stack =>
    if value2.sle value1 then some (m.jump code target stack)
    else some (m.advance stack)
  | callRead, stack =>
    match m.input with
    | [] => some { m.advance (.int32 (-1) :: stack) with events := m.events ++ [.read none] }
    | char :: input =>
      some { m.advance (.int32 (char.setWidth 32) :: stack) with
        input := input, events := m.events ++ [.read (some char)] }
  | callWrite, .int32 value :: stack =>
    some { m.advance stack with events := m.events ++ [.write (value.setWidth 16)] }
  | _, _ => none

/-- A stack that is higher than the method says is no valid program. -/
def BFMethod.step (method : BFMethod) (m : BFMachine) : Option BFMachine := do
  let insn ← method.code[m.pc]?
  let m ← insn.exec method.code m
  if m.stack.length ≤ method.maxStack then some m else none

/-- The method returns. -/
def BFMethod.Halted (method : BFMethod) (m : BFMachine) : Prop :=
  method.code[m.pc]? = some .ret ∧ m.stack = []

end Pnet.Cscc.BF

/-! ### The meaning of a program

What a program means: its commands are interpreted one by one, and the nodes that the commands
are merged to stand for the same. -/
namespace Pnet.Cscc.BF
open Pnet.Lib

/-! ### What a program does -/

/-- The tape and the head, and what has been read and written. The last two fields are about the
run itself: how far the moves have gone since the last other command or test, and whether all
runs of moves and all writes so far have fitted. -/
structure BFState where
  cells : Nat → ILUInt8
  loc : Nat
  input : List ILUInt16
  events : List BFEvent
  moved : Int
  fits : Bool

namespace BFState

def start (size : MaxArraySize) (input : List ILUInt16) : BFState :=
  { cells := fun _ => 0, loc := size.value / 2, input := input, events := [], moved := 0,
    fits := true }

/-- The end of a run of moves. -/
def flush (s : BFState) : BFState :=
  { s with moved := 0, fits := s.fits && decide (s.moved.natAbs < 0x10000) }

def cell (s : BFState) : ILUInt8 := s.cells s.loc

def setCell (s : BFState) (x : ILUInt8) : BFState :=
  { s with cells := Function.update s.cells s.loc x }

/-- A character is cut down to a cell, and the end of the input is read as 0. -/
def read (s : BFState) : BFState :=
  match s.input with
  | [] => { s.setCell 0 with events := s.events ++ [.read none] }
  | char :: input =>
    { s.setCell (char.setWidth 8) with
      input := input, events := s.events ++ [.read (some char)] }

/-- The character of a cell. -/
def write (s : BFState) : BFState :=
  { s with
    events := s.events ++ [.write (s.cell.setWidth 16)]
    fits := s.fits && decide (s.cell < 0x80) }

end BFState

/-- A command does nothing when it would move the head from the tape. -/
def BFCommand.exec (size : MaxArraySize) (command : BFCommand) (s : BFState) : Option BFState :=
  match command with
  | plus => some (s.flush.setCell (s.cell + 1))
  | minus => some (s.flush.setCell (s.cell - 1))
  | next =>
    if s.loc + 1 < size.value then some { s with loc := s.loc + 1, moved := s.moved + 1 } else none
  | prev => if 0 < s.loc then some { s with loc := s.loc - 1, moved := s.moved - 1 } else none
  | read => some s.flush.read
  | write => some s.flush.write

/-- A loop is entered when the cell is not zero. -/
def test (s : BFState) : Bool × BFState := (decide (s.cell ≠ 0), s.flush)

/-- A program is interpreted, command by command. -/
def interpret (size : MaxArraySize) (fuel : Nat) (program : Body BFCommand) (s : BFState) :
    Outcome BFState :=
  program.run (BFCommand.exec size) test fuel s

/-! ### What should hold -/

/-- The machine is between two commands, with the tape of the program. -/
structure Agrees (s : BFState) (m : BFMachine) : Prop where
  cells : m.cells = s.cells
  loc : m.bfarrayloc.toNat = s.loc
  input : m.input = s.input
  events : m.events = s.events
  stack : m.stack = []

/-- The instructions that are put out. -/
def insns (ops : List GenOp) : List BFInsn := ops.filterMap GenOp.insn?

/-- Where commands and tests start, and where the lists of them end. -/
def commandStarts (base nextLabel : Nat) : Body BFNode → List Nat
  | .nil => [base]
  | .cons node rest =>
    let head := node.genDiscard nextLabel
    base :: commandStarts (base + (insns head.1).length) head.2 rest
  | .loop body rest =>
    let inner := genDiscard (nextLabel + 2) body
    base :: (commandStarts (base + 5) (nextLabel + 2) body ++
      commandStarts (base + 5 + (insns inner.1).length + 2) inner.2 rest)

/-- The code of a program does with an input what the program does. When the program runs on, so
does the code: for every fuel there are as many steps of the machine. -/
structure Preserves (size : MaxArraySize) (program : Body BFCommand) (input : List ILUInt16) :
    Prop where
  done : ∀ fuel s, interpret size fuel program (.start size input) = .done s →
    ∃ k m, steps (compile size program).step k (.start input) = some m ∧
      (compile size program).Halted m ∧ Agrees s m
  running : ∀ fuel s, interpret size fuel program (.start size input) = .running s →
    ∃ k m, fuel ≤ k ∧ steps (compile size program).step k (.start input) = some m ∧ Agrees s m
  empty : ∀ k m, steps (compile size program).step k (.start input) = some m →
    m.pc ∈ commandStarts 5 1 (bfOptimize none (program.map BFCommand.create)) → m.stack = []

/-- Does a program do nothing but to test cells? `arith` and `moves` are the counts of a run that
has begun. -/
def idle (arith moves : ILInt32) : Body BFCommand → Bool
  | .nil => arith = 0 ∧ moves = 0
  | .cons .plus rest => moves = 0 ∧ idle (arith + 1) 0 rest
  | .cons .minus rest => moves = 0 ∧ idle (arith + -1) 0 rest
  | .cons .next rest => arith = 0 ∧ idle 0 (moves + 1) rest
  | .cons .prev rest => arith = 0 ∧ idle 0 (moves + -1) rest
  | .cons .read _ | .cons .write _ => false
  | .loop body rest => arith = 0 ∧ moves = 0 ∧ idle 0 0 body ∧ idle 0 0 rest

/-! ### Nodes -/

section Node

variable (size : MaxArraySize)

/-- What a node stands for. -/
def BFNode.exec (node : BFNode) (s : BFState) : Option BFState :=
  match node with
  | arith count => some (s.flush.setCell (s.cell + count.setWidth 8))
  | move count =>
    let loc : Int := s.loc + count.toInt
    if 0 ≤ loc ∧ loc < size.value then
      some { s with loc := loc.toNat, moved := s.moved + count.toInt }
    else none
  | read => some s.flush.read
  | write => some s.flush.write

theorem exec_create (command : BFCommand) (s : BFState) (hloc : s.loc < size.value) :
    command.create.exec size s = command.exec size s := by
  cases command with
  | plus | read | write => rfl
  | minus =>
    have hminus : (-1 : ILInt32).setWidth 8 = -(1 : ILUInt8) := by decide
    simp only [BFCommand.create, BFNode.exec, BFCommand.exec, hminus, BitVec.sub_eq_add_neg]
  | next =>
    have hone : (1 : ILInt32).toInt = 1 := rfl
    simp only [BFCommand.create, BFNode.exec, BFCommand.exec, hone]
    by_cases h : s.loc + 1 < size.value
    · rw [if_pos h, if_pos ⟨by omega, by omega⟩]
      rfl
    · rw [if_neg h, if_neg (by omega)]
  | prev =>
    have hone : (-1 : ILInt32).toInt = -1 := rfl
    simp only [BFCommand.create, BFNode.exec, BFCommand.exec, hone]
    by_cases h : 0 < s.loc
    · rw [if_pos h, if_pos ⟨by omega, by omega⟩]
      congr 2
      omega
    · rw [if_neg h, if_neg (by omega)]

theorem flush_flush (s : BFState) : s.flush.flush = s.flush := by
  simp [BFState.flush]

theorem flush_setCell (s : BFState) (x : ILUInt8) :
    (s.flush.setCell x).flush = s.flush.setCell x := by
  simp [BFState.flush, BFState.setCell]

theorem cell_setCell (s : BFState) (x : ILUInt8) : (s.setCell x).cell = x :=
  Function.update_self ..

theorem setCell_setCell (s : BFState) (x y : ILUInt8) :
    (s.setCell x).setCell y = s.setCell y := by
  simp [BFState.setCell]

/-- Merged nodes do what the two nodes do. -/
theorem exec_merge {node1 node2 both : BFNode} (hmerge : node1.merge node2 = some both)
    {s s' s'' : BFState} (hloc : s.loc < size.value) (h1 : node1.exec size s = some s')
    (h2 : node2.exec size s' = some s'') : both.exec size s = some s'' := by
  cases node1 with
  | read | write => cases hmerge
  | arith count1 =>
    cases node2 with
    | read | write | move => cases hmerge
    | arith count2 =>
      cases hmerge
      cases h1
      cases h2
      rw [BFNode.exec, flush_setCell, cell_setCell, setCell_setCell, BitVec.setWidth_add _ _
        (by decide), BitVec.add_assoc]
  | move count1 =>
    cases node2 with
    | read | write | arith => cases hmerge
    | move count2 =>
      cases hmerge
      simp only [BFNode.exec, Option.ite_none_right_eq_some, Option.some.injEq] at h1 h2 ⊢
      obtain ⟨h1, rfl⟩ := h1
      obtain ⟨h2, rfl⟩ := h2
      have hmax := size.lt_max
      dsimp only at h2 ⊢
      have hsum : (count1 + count2).toInt = count1.toInt + count2.toInt := by
        rw [BitVec.toInt_add]
        apply Int.bmod_eq_of_le <;> omega
      rw [hsum]
      refine ⟨by omega, ?_⟩
      congr 1
      · omega
      · omega

end Node

end Pnet.Cscc.BF
