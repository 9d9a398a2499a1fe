import Pnet.Codegen.GenCast

/-! Reading and writing bit fields, `cscc/c/c_lvalue.tc`: the code that is put out for a field
of a structure, and the machine that it runs on. -/
namespace Pnet.Cscc
open Pnet.Codegen Pnet.Engine

/-! ### Masks -/

/-- What the compiler that `cscc` is built with makes of a 1 that is shifted by the width of
its type, which C leaves undefined. -/
structure ShiftOverflow where
  word : ILUInt32
  long : ILUInt64

variable (overflow : ShiftOverflow)

/-- `(((ILUInt32)1) << size) - 1` -/
def wordMask (size : ILUInt32) : ILUInt32 :=
  (if size.toNat < 32 then 1#32 <<< size.toNat else overflow.word) - 1

/-- `(((ILUInt64)1) << size) - 1` -/
def longMask (size : ILUInt32) : ILUInt64 :=
  (if size.toNat < 64 then 1#64 <<< size.toNat else overflow.long) - 1

/-! ### Code -/

def shiftBy (op : ShiftOp) (count : ILUInt32) : List ILOp := ilGenUIntNative count ++ [.shift op]

/-- Convert a raw storage value into a bit field value. -/
def rawToBitField (type : ILMachineType) (start size : ILUInt32) : List ILOp :=
  match type with
  | .int8 | .int16 | .int32 =>
    -- Handle signed fields of 32 bits or less in size
    if size = 8 then
      if start = 32 - 8 then shiftBy .shr start
      else if start ≠ 0 then shiftBy .shr start ++ [.conv .i1]
      else [.conv .i1]
    else if size = 16 then
      if start = 32 - 16 then shiftBy .shr start
      else if start ≠ 0 then shiftBy .shr start ++ [.conv .i2]
      else [.conv .i2]
    else
      (if start + size < 32 then shiftBy .shl (32 - (start + size)) else []) ++
        shiftBy .shr (32 - size)
  | .uint8 | .uint16 | .char | .uint32 =>
    -- Handle unsigned fields of 32 bits or less in size
    (if start ≠ 0 then shiftBy .shrUn start else []) ++
      if size = 8 then [.conv .u1]
      else if size = 16 then [.conv .u2]
      else ilGenUInt32 (wordMask overflow size) ++ [.bin .and]
  | .int64 =>
    (if start + size < 64 then shiftBy .shl (64 - (start + size)) else []) ++
      shiftBy .shr (64 - size)
  | .uint64 =>
    (if start ≠ 0 then shiftBy .shrUn start else []) ++
      ilGenUInt64 (longMask overflow size) ++ [.bin .and]
  | _ => []

/-- Convert a bit field value into a raw storage value, ready to be OR'ed with the original
masked value. -/
def bitFieldToRaw (type : ILMachineType) (start size : ILUInt32) : List ILOp :=
  match type with
  | .int8 | .uint8 | .int16 | .uint16 | .char | .int32 | .uint32 =>
    ilGenUInt32 (wordMask overflow size) ++ [.bin .and] ++
      if start ≠ 0 then shiftBy .shl start else []
  | .int64 | .uint64 =>
    ilGenUInt64 (longMask overflow size) ++ [.bin .and] ++
      if start ≠ 0 then shiftBy .shl start else []
  | _ => []

/-- The instructions that there are besides those on numbers. `ldsfld` loads the offset of the
field, which a class with a layout of its own keeps in a static field. -/
inductive AccessOp where
  | op (op : ILOp)
  | dup
  | ldloc (num : Nat)
  | stloc (num : Nat)
  | ldsfld
  | ldfld
  | stfld
  | ldind
  | stind
deriving DecidableEq, Repr

/-- `complex` is `CTypeIsComplex` of the type that owns the field, `hasOffset` that it is a
structure and the field is not its first; `tempPtrVar` is the variable that keeps the pointer. -/
structure CBitFieldNode where
  machineType : ILMachineType
  bitFieldStart : ILUInt32
  bitFieldSize : ILUInt32
  complex : Bool
  hasOffset : Bool
  tempPtrVar : Nat

namespace CBitFieldNode

variable (node : CBitFieldNode)

def addComplexFieldOffset : List AccessOp :=
  if node.hasOffset then [.ldsfld, .op (.conv .u), .op (.bin .add)] else []

/-- What is put out behind the address or the value of the structure. -/
def genValue : List AccessOp :=
  (if node.complex then node.addComplexFieldOffset ++ [.ldind] else [.ldfld]) ++
    (rawToBitField overflow node.machineType node.bitFieldStart node.bitFieldSize).map .op

/-- What is put out behind the address of the structure, before the value. -/
def prepare : List AccessOp :=
  (if node.complex then node.addComplexFieldOffset else []) ++ [.dup, .stloc node.tempPtrVar]

/-- Load the other bits. -/
def otherBits : List ILOp :=
  if node.machineType = .int64 ∨ node.machineType = .uint64 then
    ilGenUInt64 (~~~(longMask overflow node.bitFieldSize <<< node.bitFieldStart.toNat)) ++
      [.bin .and]
  else
    ilGenUInt32 (~~~(wordMask overflow node.bitFieldSize <<< node.bitFieldStart.toNat)) ++
      [.bin .and]

/-- `leave` is the variable for a value that is to be left on the stack, `tempVar` the variable
of a value that the preparation has left. -/
def store (leave tempVar : Option Nat) : List AccessOp :=
  leave.toList.flatMap (fun num => [.dup, .stloc num]) ++
    ((bitFieldToRaw overflow node.machineType node.bitFieldStart node.bitFieldSize).map .op ++
    ([.ldloc node.tempPtrVar, if node.complex then .ldind else .ldfld] ++
    ((node.otherBits overflow ++ [ILOp.bin .or]).map .op ++
    ([if node.complex then .stind else .stfld] ++
    (leave.toList.map .ldloc ++ tempVar.toList.map .ldloc)))))

end CBitFieldNode

/-! ### The machine -/

variable {native : NativeInt}

/-- The width of a field of an integer type. -/
def storageBits : ILMachineType → Nat
  | .int8 | .uint8 => 8
  | .int16 | .uint16 | .char => 16
  | .int64 | .uint64 => 64
  | _ => 32

/-- What the load of a field leaves. -/
def loaded (t : ILMachineType) (unit : BitVec (storageBits t)) : StackValue native :=
  match t with
  | .int8 | .int16 | .int32 => .int32 (unit.signExtend 32)
  | .int64 | .uint64 => .int64 (unit.setWidth 64)
  | _ => .int32 (unit.setWidth 32)

/-- What a store puts into a field. -/
def stored (t : ILMachineType) : StackValue native → Option (BitVec (storageBits t))
  | .int32 x => if t = .int64 ∨ t = .uint64 then none else some (x.setWidth _)
  | .int64 x => if t = .int64 ∨ t = .uint64 then some (x.setWidth _) else none
  | _ => none

/-- `memory` has the unit of storage at each address. -/
structure AccessState (native : NativeInt) (w : Nat) where
  stack : Stack native
  locals : Nat → StackValue native
  memory : BitVec native.bits → BitVec w

def AccessState.push {w : Nat} (s : AccessState native w) (x : StackValue native) :
    AccessState native w :=
  { s with stack := x :: s.stack }

/-- The class that owns the field has it at `offset`. -/
def AccessOp.exec (lib : SystemDecimal) (t : ILMachineType) (offset : ILUInt32) (op : AccessOp)
    (s : AccessState native (storageBits t)) : Except Fault (AccessState native (storageBits t)) :=
  match op, s.stack with
  | .op op, stack => (op.exec lib stack).map fun stack => { s with stack := stack }
  | dup, x :: stack => .ok { s with stack := x :: x :: stack }
  | ldloc num, _ => .ok (s.push (s.locals num))
  | stloc num, x :: stack =>
    .ok { s with stack := stack, locals := Function.update s.locals num x }
  | ldsfld, _ => .ok (s.push (.int32 offset))
  | ldfld, .nativeInt ptr :: stack =>
    .ok { s with stack := loaded t (s.memory (ptr + offset.setWidth _)) :: stack }
  | ldind, .nativeInt ptr :: stack => .ok { s with stack := loaded t (s.memory ptr) :: stack }
  | stfld, x :: .nativeInt ptr :: stack =>
    (orInvalid (stored t x)).map fun unit =>
      { s with
        stack := stack
        memory := Function.update s.memory (ptr + offset.setWidth _) unit }
  | stind, x :: .nativeInt ptr :: stack =>
    (orInvalid (stored t x)).map fun unit =>
      { s with stack := stack, memory := Function.update s.memory ptr unit }
  | _, _ => .error .invalidProgram

def runAccess (lib : SystemDecimal) (t : ILMachineType) (offset : ILUInt32) :
    List AccessOp → AccessState native (storageBits t) →
      Except Fault (AccessState native (storageBits t))
  | [], s => .ok s
  | op :: code, s => (op.exec lib t offset s).bind (runAccess lib t offset code)

end Pnet.Cscc
