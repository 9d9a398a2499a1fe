import Pnet.Engine.Cvm
import Pnet.Lib.ByteWindow

/-! Labels in the code of the converted virtual machine: `engine/cvmc_branch.c`, the macros
of `engine/cvmc_gen.h` that put out and back-patch branches, and the instructions that run
them. The cache is taken not to be full, and memory not to run out. -/
namespace Pnet.Engine
open Pnet.Lib

/-! ### Bytes -/

/-- `_CVM_WORD` and `IL_WRITE_INT32`, least significant byte first. -/
def wordBytes (value : ILUInt32) : List ILUInt8 :=
  [value.extractLsb' 0 8, value.extractLsb' 8 8, value.extractLsb' 16 8, value.extractLsb' 24 8]

def ilReadInt32 (code : List ILUInt8) (posn : Nat) : Option ILInt32 := do
  let byte0 ← code[posn]?
  let byte1 ← code[posn + 1]?
  let byte2 ← code[posn + 2]?
  let byte3 ← code[posn + 3]?
  return byte3 ++ byte2 ++ byte1 ++ byte0

def copNop : ILUInt8 := 0x00
def copBrLong : ILUInt8 := 0xB2
def copSwitch : ILUInt8 := 0xB3

def cvmOutBranch (op : BranchOp) (offset : ILInt32) : List ILUInt8 :=
  [op.code, offset.setWidth 8, 0, 0, 0, 0]

def cvmOutBranchLong (op : BranchOp) (offset : ILInt32) : List ILUInt8 :=
  copBrLong :: op.code :: wordBytes offset

def cvmOutBranchPlaceholder (op : BranchOp) : List ILUInt8 :=
  [op.code, op.code, 0, 0, 0, 0]

def cvmDefcaseOffset (numEntries : ILUInt32) : ILInt32 := 9 + numEntries * 4

def cvmOutSwhead (numEntries : ILUInt32) (defCase : ILInt32) : List ILUInt8 :=
  copSwitch :: (wordBytes numEntries ++ wordBytes defCase)

/-! ### The coder -/

def ilcvmLabelUndef : ILUInt32 := 0xFFFFFFFF

/-- A reference to a label, an `ILCVMLabel` of the chain `nextRef`. -/
structure CVMRef where
  address : ILUInt32
  offset : ILUInt32
deriving DecidableEq

structure ILCVMLabel where
  address : ILUInt32
  offset : ILUInt32
  refs : List CVMRef
deriving DecidableEq

/-- `code` is what was put out since `start`; `switchStart` is a position in it. -/
structure ILCVMCoder where
  code : List ILUInt8
  labelList : List ILCVMLabel
  switchStart : Nat

def ILCVMCoder.init : ILCVMCoder := ⟨[], [], 0⟩

namespace ILCVMCoder

/-- `CVM_POSN() - coder->start` -/
def posn (coder : ILCVMCoder) : ILUInt32 := BitVec.ofNat 32 coder.code.length

def out (coder : ILCVMCoder) (bytes : List ILUInt8) : ILCVMCoder :=
  { coder with code := coder.code ++ bytes }

end ILCVMCoder

/-- The label of an address, and the list with it. -/
def getLabel (labelList : List ILCVMLabel) (address : ILUInt32) :
    ILCVMLabel × List ILCVMLabel :=
  match labelList.find? fun label => label.address = address with
  | some label => (label, labelList)
  | none => (⟨address, ilcvmLabelUndef, []⟩, ⟨address, ilcvmLabelUndef, []⟩ :: labelList)

/-- The list after the fields of a label were written. -/
def setLabel (labelList : List ILCVMLabel) (label : ILCVMLabel) : List ILCVMLabel :=
  labelList.map fun old => if old.address = label.address then label else old

def isShort (relative : ILInt32) : Prop := -128 ≤ relative.toInt ∧ relative.toInt ≤ 127

instance (relative : ILInt32) : Decidable (isShort relative) :=
  inferInstanceAs (Decidable (_ ∧ _))

/-- Back-patch one of the references that are attached to a label at `offset`. -/
def backpatch (offset : ILUInt32) (code : List ILUInt8) (ref : CVMRef) : List ILUInt8 :=
  let dest : ILInt32 := offset - ref.offset
  if ref.address = ilcvmLabelUndef then
    -- Ordinary branch instruction
    if isShort dest then patch code (ref.offset.toNat + 1) [dest.setWidth 8]
    else patch (patch code ref.offset.toNat [copBrLong]) (ref.offset.toNat + 2) (wordBytes dest)
  else
    -- Switch table entry
    patch code ref.address.toNat (wordBytes dest)

/-- `unroll` is `_ILCVMUnrollPossible()`. -/
def cvmCoderLabel (unroll : Bool) (coder : ILCVMCoder) (address : ILUInt32) : ILCVMCoder :=
  let coder := if unroll then coder.out [copNop] else coder
  let (label, labelList) := getLabel coder.labelList address
  { coder with
    code := label.refs.foldl (backpatch coder.posn) coder.code
    labelList := setLabel labelList { label with offset := coder.posn, refs := [] } }

def outputBranch (coder : ILCVMCoder) (op : BranchOp) (dest : ILUInt32) : ILCVMCoder :=
  let (label, labelList) := getLabel coder.labelList dest
  if label.offset ≠ ilcvmLabelUndef then
    let relative : ILInt32 := label.offset - coder.posn
    { coder with labelList := labelList }.out
      (if isShort relative then cvmOutBranch op relative else cvmOutBranchLong op relative)
  else
    let ref : CVMRef := ⟨ilcvmLabelUndef, coder.posn⟩
    { coder with labelList := setLabel labelList { label with refs := ref :: label.refs } }.out
      (cvmOutBranchPlaceholder op)

def cvmCoderSwitchStart (coder : ILCVMCoder) (numEntries : ILUInt32) : ILCVMCoder :=
  { coder with switchStart := coder.code.length }.out
    (cvmOutSwhead numEntries (cvmDefcaseOffset numEntries))

def cvmCoderSwitchEntry (coder : ILCVMCoder) (dest : ILUInt32) : ILCVMCoder :=
  let (label, labelList) := getLabel coder.labelList dest
  let switchStart : ILUInt32 := BitVec.ofNat 32 coder.switchStart
  if label.offset ≠ ilcvmLabelUndef then
    let relative : ILInt32 := label.offset - (switchStart - coder.posn)
    { coder with labelList := labelList }.out (wordBytes relative)
  else
    let ref : CVMRef := ⟨coder.posn, switchStart⟩
    { coder with labelList := setLabel labelList { label with refs := ref :: label.refs } }.out
      (wordBytes 0)

/-- The calls of the coder; `other` are all those that put out code without labels. -/
inductive CoderCall where
  | label (address : ILUInt32)
  | branch (op : BranchOp) (dest : ILUInt32)
  | switchStart (numEntries : ILUInt32)
  | switchEntry (dest : ILUInt32)
  | other (code : List ILUInt8)

def ILCVMCoder.step (unroll : Bool) (coder : ILCVMCoder) : CoderCall → ILCVMCoder
  | .label address => cvmCoderLabel unroll coder address
  | .branch op dest => outputBranch coder op dest
  | .switchStart numEntries => cvmCoderSwitchStart coder numEntries
  | .switchEntry dest => cvmCoderSwitchEntry coder dest
  | .other code => coder.out code

def ILCVMCoder.run (unroll : Bool) (calls : List CoderCall) : ILCVMCoder :=
  calls.foldl (ILCVMCoder.step unroll) .init

/-! ### The interpreter -/

section Interpreter

variable {native : NativeInt} (start : BitVec native.bits) (code : List ILUInt8) (pc : Nat)

/-- `CVM_ARG_BRANCH_SHORT` -/
def cvmArgBranchShort : Option Int := do
  let byte ← code[pc + 1]?
  return pc + byte.toInt

/-- `CVM_ARG_BRANCH_LONG` -/
def cvmArgBranchLong : Option Int := do
  let offset ← ilReadInt32 code (pc + 2)
  return pc + offset.toInt

/-- `CVM_ARG_SWITCH_DEST` -/
def cvmArgSwitchDest (n : ILUInt32) : Option Int := do
  let offset ← ilReadInt32 code (pc + 9 + (n * 4).toNat)
  return pc + offset.toInt

/-- Go to `dest` if the branch is taken. -/
def BranchOp.exec (op : BranchOp) (dest : Int) (stack : CVMStack native) :
    Option (Int × CVMStack native) := do
  let (taken, stack) ← op.test (start + BitVec.ofNat native.bits (pc + 6)) stack
  return (if taken then dest else pc + 6, stack)

/-- A branch instruction at `pc`, where `start` is the address of the code. -/
def execBranch (stack : CVMStack native) : Option (Int × CVMStack native) := do
  let cop ← code[pc]?
  if cop = copBrLong then
    let sub ← code[pc + 1]?
    -- what is no branch is taken for an unconditional one
    let op := (BranchOp.ofCode sub).getD .br
    op.exec start pc (← cvmArgBranchLong code pc) stack
  else
    let op ← BranchOp.ofCode cop
    op.exec start pc (← cvmArgBranchShort code pc) stack

/-- A `COP_SWITCH` at `pc`. -/
def execSwitch (stack : CVMStack native) : Option (Int × CVMStack native) := do
  let cop ← code[pc]?
  if cop = copSwitch then
    match stack with
    | value :: stack =>
      let n ← value.toIntValue
      let limit ← ilReadInt32 code (pc + 1)
      if n < limit then return (← cvmArgSwitchDest code pc n, stack)
      else return (pc + (← ilReadInt32 code (pc + 5)).toInt, stack)
    | [] => none
  else none

end Interpreter

end Pnet.Engine

/-! ### Where the labels are

Where branches and switch entries should lead: to the position at which their label is
defined, the last one before them or else the first one after them. -/
namespace Pnet.Engine
open Pnet.Lib

/-! ### What should hold -/

section Calls

variable (unroll : Bool)

/-- The bytes that a call puts out. -/
def callSize : CoderCall → Nat
  | .label _ => if unroll then 1 else 0
  | .branch _ _ => 6
  | .switchStart _ => 9
  | .switchEntry _ => 4
  | .other code => code.length

def codeSize (calls : List CoderCall) : Nat := (calls.map (callSize unroll)).sum

/-- The labels that are defined from `posn` on, with their positions. -/
def labelPosns (posn : Nat) : List CoderCall → List (ILUInt32 × Nat)
  | [] => []
  | .label address :: calls =>
    let posn := posn + callSize unroll (.label address)
    (address, posn) :: labelPosns posn calls
  | call :: calls => labelPosns (posn + callSize unroll call) calls

/-- The last definition of a label in calls from the start of the code. -/
def definedBefore (pre : List CoderCall) (address : ILUInt32) : Option Nat :=
  ((labelPosns unroll 0 pre).reverse.find? fun label => label.1 = address).map Prod.snd

/-- The first definition of a label in calls from `posn` on. -/
def definedAfter (posn : Nat) (post : List CoderCall) (address : ILUInt32) : Option Nat :=
  ((labelPosns unroll posn post).find? fun label => label.1 = address).map Prod.snd

/-- Where a label lies for a call between others. -/
def labelPosn (pre : List CoderCall) (call : CoderCall) (post : List CoderCall)
    (address : ILUInt32) : Option Nat :=
  (definedBefore unroll pre address).or
    (definedAfter unroll (codeSize unroll pre + callSize unroll call) post address)

variable {native : NativeInt} (start : BitVec native.bits)

/-- Each branch that is taken, and each entry of a switch, leads to the position of its
label. -/
structure LabelsResolve (calls : List CoderCall) : Prop where
  branch : ∀ pre op dest post posn, calls = pre ++ .branch op dest :: post →
    labelPosn unroll pre (.branch op dest) post dest = some posn →
    ∀ stack rest, op.test (start + BitVec.ofNat native.bits (codeSize unroll pre + 6)) stack =
      some (true, rest) →
    execBranch start (ILCVMCoder.run unroll calls).code (codeSize unroll pre) stack =
      some ((posn : Int), rest)
  switchEntry : ∀ pre numEntries (dests : List ILUInt32) dest post posn,
    calls = pre ++ .switchStart numEntries :: (dests.map .switchEntry ++ .switchEntry dest :: post) →
    dests.length < numEntries.toNat →
    labelPosn unroll (pre ++ .switchStart numEntries :: dests.map .switchEntry)
      (.switchEntry dest) post dest = some posn →
    ∀ rest : CVMStack native,
      execSwitch (ILCVMCoder.run unroll calls).code (codeSize unroll pre)
        (.intValue (BitVec.ofNat 32 dests.length) :: rest) = some ((posn : Int), rest)

/-- No entry of a switch has a label that is defined before the switch. -/
def ForwardSwitches (calls : List CoderCall) : Prop :=
  ∀ pre numEntries (dests : List ILUInt32) dest post,
    calls = pre ++ .switchStart numEntries :: (dests.map .switchEntry ++ .switchEntry dest :: post) →
    dests.length < numEntries.toNat → definedBefore unroll pre dest = none

end Calls

/-! ### Positions -/

section Posns

variable {unroll : Bool}

@[simp] theorem codeSize_nil : codeSize unroll [] = 0 := rfl

@[simp] theorem codeSize_cons (call : CoderCall) (calls : List CoderCall) :
    codeSize unroll (call :: calls) = callSize unroll call + codeSize unroll calls := by
  simp [codeSize]

@[simp] theorem codeSize_append (pre post : List CoderCall) :
    codeSize unroll (pre ++ post) = codeSize unroll pre + codeSize unroll post := by
  simp [codeSize]

theorem labelPosns_append (posn : Nat) (pre post : List CoderCall) :
    labelPosns unroll posn (pre ++ post) =
      labelPosns unroll posn pre ++ labelPosns unroll (posn + codeSize unroll pre) post := by
  induction pre generalizing posn with
  | nil => rfl
  | cons call pre ih => cases call <;> simp [labelPosns, ih, Nat.add_assoc]

theorem labelPosns_le {posn : Nat} {calls : List CoderCall} {label : ILUInt32 × Nat}
    (h : label ∈ labelPosns unroll posn calls) : label.2 ≤ posn + codeSize unroll calls := by
  induction calls generalizing posn with
  | nil => cases h
  | cons call calls ih =>
    rw [codeSize_cons, ← Nat.add_assoc]
    cases call with
    | label address =>
      cases h with
      | head => exact Nat.le_add_right _ _
      | tail _ h => exact ih h
    | branch | switchStart | switchEntry | other => exact ih h

theorem definedBefore_le {pre : List CoderCall} {address : ILUInt32} {posn : Nat}
    (h : definedBefore unroll pre address = some posn) : posn ≤ codeSize unroll pre := by
  obtain ⟨label, hfind, rfl⟩ := Option.map_eq_some_iff.1 h
  have hmem := List.mem_reverse.1 (List.mem_of_find?_eq_some hfind)
  simpa using labelPosns_le hmem

theorem definedAfter_le {post : List CoderCall} {address : ILUInt32} {first posn : Nat}
    (h : definedAfter unroll first post address = some posn) :
    posn ≤ first + codeSize unroll post := by
  obtain ⟨label, hfind, rfl⟩ := Option.map_eq_some_iff.1 h
  exact labelPosns_le (List.mem_of_find?_eq_some hfind)

/-- Calls that define no label. -/
theorem labelPosns_switchEntries (posn : Nat) (dests : List ILUInt32) :
    labelPosns unroll posn (dests.map .switchEntry) = [] := by
  induction dests generalizing posn with
  | nil => rfl
  | cons dest dests ih => exact ih _

theorem codeSize_switchEntries (dests : List ILUInt32) :
    codeSize unroll (dests.map .switchEntry) = 4 * dests.length := by
  induction dests with
  | nil => rfl
  | cons dest dests ih =>
    rw [List.map_cons, codeSize_cons, ih, List.length_cons]
    simp only [callSize]
    omega

theorem definedBefore_table (pre : List CoderCall) (numEntries : ILUInt32)
    (dests : List ILUInt32) (address : ILUInt32) :
    definedBefore unroll (pre ++ .switchStart numEntries :: dests.map .switchEntry) address =
      definedBefore unroll pre address := by
  simp [definedBefore, labelPosns_append, labelPosns, labelPosns_switchEntries]

/-! One more call at the end. -/

variable (pre post : List CoderCall) (address : ILUInt32) (posn : Nat)

theorem definedBefore_label : definedBefore unroll (pre ++ [.label address]) address =
    some (codeSize unroll (pre ++ [.label address])) := by
  simp [definedBefore, labelPosns_append, labelPosns]

theorem definedBefore_snoc {call : CoderCall} (hcall : call ≠ .label address) :
    definedBefore unroll (pre ++ [call]) address = definedBefore unroll pre address := by
  unfold definedBefore
  rw [labelPosns_append, List.reverse_append]
  cases call with
  | label other =>
    have hne : other ≠ address := fun heq => hcall (heq ▸ rfl)
    simp [labelPosns, hne]
  | branch | switchStart | switchEntry | other => simp [labelPosns]

theorem definedAfter_label : definedAfter unroll posn (post ++ [.label address]) address =
    (definedAfter unroll posn post address).or
      (some (posn + codeSize unroll (post ++ [.label address]))) := by
  unfold definedAfter
  rw [labelPosns_append, List.find?_append]
  cases (labelPosns unroll posn post).find? fun label => label.1 = address with
  | none => simp [labelPosns, Nat.add_assoc]
  | some label => simp

theorem definedAfter_snoc {call : CoderCall} (hcall : call ≠ .label address) :
    definedAfter unroll posn (post ++ [call]) address = definedAfter unroll posn post address := by
  unfold definedAfter
  rw [labelPosns_append, List.find?_append]
  cases call with
  | label other =>
    have hne : other ≠ address := fun heq => hcall (heq ▸ rfl)
    simp [labelPosns, hne]
  | branch | switchStart | switchEntry | other => simp [labelPosns]

end Posns

end Pnet.Engine
