import Pnet.CTypes

/-! The stack of the converted virtual machine, and its branch instructions:
`engine/cvm_branch.c`. -/
namespace Pnet.Engine

/-- `IL_NATIVE_INT32` or `IL_NATIVE_INT64`. -/
inductive NativeInt where
  | int32
  | int64
deriving DecidableEq, Repr

/-- The bits of a native integer, and of a pointer. -/
def NativeInt.bits : NativeInt → Nat
  | .int32 => 32
  | .int64 => 64

/-- What lies on the stack, by the member that it was written through. -/
inductive CVMValue (native : NativeInt) where
  | intValue (value : ILInt32)
  | long (value : ILUInt64)
  | ptrValue (value : BitVec native.bits)
  | float (value : ILNativeFloat)
deriving DecidableEq

namespace CVMValue

def toIntValue {native : NativeInt} : CVMValue native → Option ILInt32
  | intValue value => some value
  | _ => none

def toLong {native : NativeInt} : CVMValue native → Option ILUInt64
  | long value => some value
  | _ => none

/-- A native integer fills the word that a pointer fills. -/
def toPtrValue : {native : NativeInt} → CVMValue native → Option (BitVec native.bits)
  | _, ptrValue value => some value
  | .int32, intValue value => some value
  | .int64, long value => some value
  | _, _ => none

def toFloat {native : NativeInt} : CVMValue native → Option ILNativeFloat
  | float value => some value
  | _ => none

end CVMValue

/-- The stack, top first. -/
abbrev CVMStack (native : NativeInt) := List (CVMValue native)

/-! ### Branches -/

inductive BranchOp where
  | br | beq | bne | blt | bltUn | ble | bleUn | bgt | bgtUn | bge | bgeUn
  | brtrue | brfalse | brnull | brnonnull | brPeq | brPne | jsr
deriving DecidableEq, Repr

namespace BranchOp

/-- The byte of an opcode, `COP_BR` to `COP_BR_PNE` and `COP_JSR`. -/
def code : BranchOp → ILUInt8
  | br => 0xA1
  | beq => 0xA2
  | bne => 0xA3
  | blt => 0xA4
  | bltUn => 0xA5
  | ble => 0xA6
  | bleUn => 0xA7
  | bgt => 0xA8
  | bgtUn => 0xA9
  | bge => 0xAA
  | bgeUn => 0xAB
  | brtrue => 0xAC
  | brfalse => 0xAD
  | brnull => 0xAE
  | brnonnull => 0xAF
  | brPeq => 0xB0
  | brPne => 0xB1
  | jsr => 0xDB

def all : List BranchOp :=
  [br, beq, bne, blt, bltUn, ble, bleUn, bgt, bgtUn, bge, bgeUn,
    brtrue, brfalse, brnull, brnonnull, brPeq, brPne, jsr]

def ofCode (byte : ILUInt8) : Option BranchOp :=
  all.find? fun op => op.code = byte

@[simp] theorem ofCode_code (op : BranchOp) : ofCode op.code = some op := by
  cases op <;> rfl

section Test

variable {native : NativeInt}

def testInts (relation : ILInt32 → ILInt32 → Bool) (stack : CVMStack native) :
    Option (Bool × CVMStack native) :=
  match stack with
  | value2 :: value1 :: stack => do
    return (relation (← value1.toIntValue) (← value2.toIntValue), stack)
  | _ => none

def testInt (relation : ILInt32 → Bool) (stack : CVMStack native) :
    Option (Bool × CVMStack native) :=
  match stack with
  | value :: stack => do return (relation (← value.toIntValue), stack)
  | _ => none

def testPtrs (relation : BitVec native.bits → BitVec native.bits → Bool)
    (stack : CVMStack native) : Option (Bool × CVMStack native) :=
  match stack with
  | value2 :: value1 :: stack => do
    return (relation (← value1.toPtrValue) (← value2.toPtrValue), stack)
  | _ => none

def testPtr (relation : BitVec native.bits → Bool) (stack : CVMStack native) :
    Option (Bool × CVMStack native) :=
  match stack with
  | value :: stack => do return (relation (← value.toPtrValue), stack)
  | _ => none

/-- Is the branch taken, and what is left on the stack? `returnPc` is what `jsr` pushes. -/
def test (op : BranchOp) (returnPc : BitVec native.bits) (stack : CVMStack native) :
    Option (Bool × CVMStack native) :=
  match op with
  | br => some (true, stack)
  | beq => testInts (fun a b => a = b) stack
  | bne => testInts (fun a b => a ≠ b) stack
  | blt => testInts BitVec.slt stack
  | bltUn => testInts BitVec.ult stack
  | ble => testInts BitVec.sle stack
  | bleUn => testInts BitVec.ule stack
  | bgt => testInts (fun a b => b.slt a) stack
  | bgtUn => testInts (fun a b => b.ult a) stack
  | bge => testInts (fun a b => b.sle a) stack
  | bgeUn => testInts (fun a b => b.ule a) stack
  | brtrue => testInt (fun a => a ≠ 0) stack
  | brfalse => testInt (fun a => a = 0) stack
  | brnull => testPtr (fun a => a = 0) stack
  | brnonnull => testPtr (fun a => a ≠ 0) stack
  | brPeq => testPtrs (fun a b => a = b) stack
  | brPne => testPtrs (fun a b => a ≠ b) stack
  | jsr => some (true, .ptrValue returnPc :: stack)

end Test

end BranchOp

end Pnet.Engine
