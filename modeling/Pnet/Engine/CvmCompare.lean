import Pnet.Engine.Cvm

/-! Conditional branches and comparisons in the code of the converted virtual machine:
`engine/cvmc_branch.c`, `AdjustMixedBinary` of `engine/cvmc_arith.c`, the operand types that
`engine/verify_branch.c` accepts, and the instructions of `engine/cvm_compare.c` and
`engine/cvm_conv.c` that they use. -/
namespace Pnet.Engine

inductive ILEngineType where
  | i4 | i8 | i | f | m | o | t | mv
deriving DecidableEq, Repr

/-! ### Instructions -/

inductive CVMInsn where
  | ldcI4_0 | i2l | iu2l | i2f | fixI4I | fixI4U
  | icmp | icmpUn | lcmp | lcmpUn | fcmpl | fcmpg | pcmp
  | seteq | setne | setlt | setle | setgt | setge
deriving DecidableEq, Repr

section Exec

variable {native : NativeInt}

def compareResult (less greater : Bool) : ILInt32 :=
  if less then -1 else if greater then 1 else 0

def lCmp (a b : ILUInt64) : ILInt32 := compareResult (a.slt b) (b.slt a)

def lUCmp (a b : ILUInt64) : ILInt32 := compareResult (a.ult b) (b.ult a)

def fCmp (a b : ILNativeFloat) (nanResult : ILInt32) : ILInt32 :=
  if a.ilNativeFloatIsNaN || b.ilNativeFloatIsNaN then nanResult
  else compareResult (a.lt b) (b.lt a)

/-- Replace the two values on the top by the result of a comparison. -/
def compareTop {α : Type} (read : CVMValue native → Option α) (compare : α → α → ILInt32) :
    CVMStack native → Option (CVMStack native)
  | value2 :: value1 :: stack => do
    return .intValue (compare (← read value1) (← read value2)) :: stack
  | _ => none

/-- Replace the value on the top by the result of a test. -/
def setTop (test : ILInt32 → Bool) : CVMStack native → Option (CVMStack native)
  | value :: stack => do
    return .intValue (if test (← value.toIntValue) then 1 else 0) :: stack
  | _ => none

def convertTop (convert : ILInt32 → CVMValue native) : CVMStack native → Option (CVMStack native)
  | value :: stack => do return convert (← value.toIntValue) :: stack
  | _ => none

/-- Fix a (I4, I) pair on the stack to be (I, I). -/
def fixPair (widen : ILInt32 → ILUInt64) (stack : CVMStack native) : Option (CVMStack native) :=
  match native with
  | .int32 => some stack
  | .int64 =>
    match stack with
    | value2 :: value1 :: stack => do
      return .long (← value2.toLong) :: .long (widen (← value1.toIntValue)) :: stack
    | _ => none

def CVMInsn.exec : CVMInsn → CVMStack native → Option (CVMStack native)
  | ldcI4_0, stack => some (.intValue 0 :: stack)
  | i2l, stack => convertTop (fun value => .long (value.signExtend 64)) stack
  | iu2l, stack => convertTop (fun value => .long (value.setWidth 64)) stack
  | i2f, stack => convertTop (fun value => .float (.finite value.toInt)) stack
  | fixI4I, stack => fixPair (fun value => value.signExtend 64) stack
  | fixI4U, stack => fixPair (fun value => value.setWidth 64) stack
  | icmp, stack =>
    compareTop CVMValue.toIntValue (fun a b => compareResult (a.slt b) (b.slt a)) stack
  | icmpUn, stack =>
    compareTop CVMValue.toIntValue (fun a b => compareResult (a.ult b) (b.ult a)) stack
  | lcmp, stack => compareTop CVMValue.toLong lCmp stack
  | lcmpUn, stack => compareTop CVMValue.toLong lUCmp stack
  | fcmpl, stack => compareTop CVMValue.toFloat (fun a b => fCmp a b (-1)) stack
  | fcmpg, stack => compareTop CVMValue.toFloat (fun a b => fCmp a b 1) stack
  | pcmp, stack =>
    compareTop CVMValue.toPtrValue (fun a b => compareResult (a.ult b) (b.ult a)) stack
  | seteq, stack => setTop (fun a => a = 0) stack
  | setne, stack => setTop (fun a => a ≠ 0) stack
  | setlt, stack => setTop (fun a => a.slt 0) stack
  | setle, stack => setTop (fun a => a.sle 0) stack
  | setgt, stack => setTop (fun a => (0 : ILInt32).slt a) stack
  | setge, stack => setTop (fun a => (0 : ILInt32).sle a) stack

def execInsns (insns : List CVMInsn) (stack : CVMStack native) : Option (CVMStack native) :=
  insns.foldlM (fun stack insn => insn.exec stack) stack

end Exec

/-! ### The coder -/

section Coder

variable (native : NativeInt)

/-- The instructions that `AdjustMixedBinary` puts out, and the types that it leaves. -/
def adjustMixedBinary (isUnsigned : Bool) (type1 type2 : ILEngineType) :
    List CVMInsn × ILEngineType × ILEngineType :=
  let insns : List CVMInsn :=
    if native = .int64 then
      -- If the arguments mix I and I4, then cast the I4 value to I
      if type1 = .i ∧ type2 = .i4 then [if isUnsigned then .iu2l else .i2l]
      else if type1 = .i4 ∧ type2 = .i then [if isUnsigned then .fixI4U else .fixI4I]
      else []
    else []
  -- If one of the arguments is M or T, then both should be M
  let (type1, type2) : ILEngineType × ILEngineType :=
    if type1 = .m ∨ type1 = .t ∨ type2 = .m ∨ type2 = .t then (.m, .m) else (type1, type2)
  -- If one of the arguments is I, then an I4 or an I8 instruction is needed
  if type1 = .i ∨ type2 = .i then
    if native = .int32 then (insns, .i4, .i4) else (insns, .i8, .i8)
  else (insns, type1, type2)

/-- The code of a branch: what comes before it, and its opcode. -/
abbrev BranchCode := List CVMInsn × Option BranchOp

def outputCondBranch (iopcode : BranchOp) (lopcode fopcode : CVMInsn) (cmpopcode : BranchOp)
    (type : ILEngineType) : BranchCode :=
  match type with
  | .i4 => ([], some iopcode)
  | .i8 => ([lopcode, .ldcI4_0], some cmpopcode)
  | .f => ([fopcode, .ldcI4_0], some cmpopcode)
  | .m | .t | .o | .i =>
    if cmpopcode = .beq then ([], some .brPeq)
    else if cmpopcode = .bne then ([], some .brPne)
    else ([.pcmp, .ldcI4_0], some cmpopcode)
  | .mv => ([], none)

inductive ILBranchOp where
  | br | leave | brtrue | brfalse
  | beq | bneUn | bgt | bgtUn | bge | bgeUn | blt | bltUn | ble | bleUn
deriving DecidableEq, Repr

/-- The tests of a single value, `op1` for numbers and `op2` for pointers. -/
def outputUnaryBranch (op1 op2 : BranchOp) (type1 : ILEngineType) : BranchCode :=
  match native, type1 with
  | _, .i4 | .int32, .i => ([], some op1)
  | _, .i8 | .int64, .i => ([.ldcI4_0, .i2l, .lcmp], some op1)
  | _, .f => ([.ldcI4_0, .i2f, .fcmpg], some op1)
  | _, _ => ([], some op2)

/-- A branch that compares two values. -/
def outputBinaryBranch (isUnsigned : Bool) (iopcode : BranchOp) (lopcode fopcode : CVMInsn)
    (cmpopcode : BranchOp) (type1 type2 : ILEngineType) : BranchCode :=
  let (insns, type, _) := adjustMixedBinary native isUnsigned type1 type2
  let (before, op) := outputCondBranch iopcode lopcode fopcode cmpopcode type
  (insns ++ before, op)

def cvmCoderBranch (opcode : ILBranchOp) (type1 type2 : ILEngineType) : BranchCode :=
  match opcode with
  | .br | .leave => ([], some .br)
  | .brtrue => outputUnaryBranch native .brtrue .brnonnull type1
  | .brfalse => outputUnaryBranch native .brfalse .brnull type1
  | .beq => outputBinaryBranch native false .beq .lcmp .fcmpl .beq type1 type2
  | .bneUn => outputBinaryBranch native true .bne .lcmp .fcmpl .bne type1 type2
  | .bgt => outputBinaryBranch native false .bgt .lcmp .fcmpl .bgt type1 type2
  | .bgtUn => outputBinaryBranch native true .bgtUn .lcmpUn .fcmpg .bgt type1 type2
  | .bge => outputBinaryBranch native false .bge .lcmp .fcmpl .bge type1 type2
  | .bgeUn => outputBinaryBranch native true .bgeUn .lcmpUn .fcmpg .bge type1 type2
  | .blt => outputBinaryBranch native false .blt .lcmp .fcmpg .blt type1 type2
  | .bltUn => outputBinaryBranch native true .bltUn .lcmpUn .fcmpl .blt type1 type2
  | .ble => outputBinaryBranch native false .ble .lcmp .fcmpg .ble type1 type2
  | .bleUn => outputBinaryBranch native true .bleUn .lcmpUn .fcmpl .ble type1 type2

def outputCondCompare (iopcode lopcode fopcode finvopcode cmpopcode cmpinvopcode : CVMInsn)
    (type : ILEngineType) (invertTest : Bool) : List CVMInsn :=
  let compare : List CVMInsn :=
    match type with
    | .i4 => [iopcode]
    | .i8 => [lopcode]
    | .f => [if invertTest then finvopcode else fopcode]
    | .m | .t | .o | .i => [.pcmp]
    | .mv => []
  compare ++ [if invertTest then cmpinvopcode else cmpopcode]

inductive ILCompareOp where
  | ceq | cgt | cgtUn | clt | cltUn
deriving DecidableEq, Repr

def cvmCoderCompare (opcode : ILCompareOp) (type1 type2 : ILEngineType) (invertTest : Bool) :
    List CVMInsn :=
  let (insns, type, _) := adjustMixedBinary native false type1 type2
  insns ++ match opcode with
  | .ceq => outputCondCompare .icmp .lcmp .fcmpl .fcmpl .seteq .setne type invertTest
  | .cgt => outputCondCompare .icmp .lcmp .fcmpl .fcmpg .setgt .setle type invertTest
  | .cgtUn => outputCondCompare .icmpUn .lcmpUn .fcmpg .fcmpg .setgt .setle type invertTest
  | .clt => outputCondCompare .icmp .lcmp .fcmpg .fcmpl .setlt .setge type invertTest
  | .cltUn => outputCondCompare .icmpUn .lcmpUn .fcmpl .fcmpl .setlt .setge type invertTest

end Coder

/-! ### Operand types -/

def binaryCompareMatrix : ILEngineType → ILEngineType → Bool
  | .i4, .i4 | .i4, .i | .i8, .i8 | .i, .i4 | .i, .i | .f, .f
  | .m, .m | .m, .t | .t, .m | .t, .t => true
  | _, _ => false

def binaryEqualityMatrix : ILEngineType → ILEngineType → Bool
  | .o, .o => true
  | type1, type2 => binaryCompareMatrix type1 type2

/-- Unsafe code may also mix pointers with native integers. -/
def unsafeCompareMatrix : ILEngineType → ILEngineType → Bool
  | .i, .m | .i, .t | .m, .i | .t, .i => true
  | type1, type2 => binaryCompareMatrix type1 type2

def unsafeEqualityMatrix : ILEngineType → ILEngineType → Bool
  | .o, .o => true
  | type1, type2 => unsafeCompareMatrix type1 type2

/-- The operand types with which the verifier lets a relation through to the coder. -/
def relationAccepted (unsafeAllowed : Bool) (opcode : ILCompareOp) (type1 type2 : ILEngineType) :
    Bool :=
  match opcode with
  | .ceq =>
    if unsafeAllowed then unsafeEqualityMatrix type1 type2 else binaryEqualityMatrix type1 type2
  | .cgtUn =>
    -- the unsigned test can be used on object references
    (type1 = .o ∧ type2 = .o) ||
      if unsafeAllowed then unsafeCompareMatrix type1 type2 else binaryCompareMatrix type1 type2
  | _ =>
    if unsafeAllowed then unsafeCompareMatrix type1 type2 else binaryCompareMatrix type1 type2

end Pnet.Engine
