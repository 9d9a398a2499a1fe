import Pnet.Codegen.CastConst
import Pnet.Engine.Cvm

/-! The stack machine that the IL runs on, as far as the arithmetic and the casts of constants
use it. The short forms of `ldc.i4` keep their operand in the opcode. The class
`System.Decimal` is not part of the sources; it is what `SystemDecimal` stands for. -/
namespace Pnet.Codegen
open Pnet.Support Pnet.Engine

inductive StackValue (native : NativeInt) where
  | int32 (x : BitVec 32)
  | int64 (x : BitVec 64)
  | nativeInt (x : BitVec native.bits)
  | decimal (d : ILDecimal)
deriving DecidableEq

inductive Fault where
  | overflow
  | divideByZero
  | arithmetic
  | invalidProgram
deriving DecidableEq, Repr

/-- The types that a conversion opcode names. -/
inductive ConvType where
  | i1 | u1 | i2 | u2 | i4 | u4 | i8 | u8 | i | u
deriving DecidableEq, Repr

/-- The instructions that take two numbers of one type. -/
inductive BinOp where
  | add | addOvf | addOvfUn | sub | subOvf | subOvfUn | mul | mulOvf | mulOvfUn
  | div | divUn | rem | remUn | and | or | xor
deriving DecidableEq, Repr

inductive ShiftOp where
  | shl | shr | shrUn
deriving DecidableEq, Repr

inductive ILOp where
  | ldcI4M1
  | ldcI4N (n : Fin 9)
  | ldcI4S (x : ILInt8)
  | ldcI4 (x : ILInt32)
  | ldcI8 (x : ILInt64)
  | conv (t : ConvType)
  | convOvf (t : ConvType)
  | convOvfUn (t : ConvType)
  | ceq
  | bin (op : BinOp)
  | shift (op : ShiftOp)
  | neg
  | not
  /-- `System.Decimal::op_Implicit(t)` -/
  | opImplicit (t : ILMachineType)
  /-- `t System.Decimal::op_Explicit(System.Decimal)` -/
  | opExplicit (t : ILMachineType)
  | opEquality
  | opAddition
  | opSubtraction
  /-- `newobj System.Decimal(int32, int32, int32, bool, unsigned int8)` -/
  | newDecimal
deriving DecidableEq, Repr

/-! ### The class System.Decimal -/

/-- The least and the greatest value of a type. -/
def ILMachineType.range : ILMachineType → Int × Int
  | .boolean => (0, 1)
  | .int8 => (-128, 127)
  | .uint8 => (0, 255)
  | .int16 => (-32768, 32767)
  | .uint16 | .char => (0, 65535)
  | .int32 | .nativeInt => (-2147483648, 2147483647)
  | .uint32 | .nativeUInt => (0, 4294967295)
  | .int64 => (-9223372036854775808, 9223372036854775807)
  | .uint64 => (0, 18446744073709551615)
  | .decimal => (-79228162514264337593543950335, 79228162514264337593543950335)

def InRange (range : Int × Int) (n : Int) : Prop := range.1 ≤ n ∧ n ≤ range.2

instance (range : Int × Int) (n : Int) : Decidable (InRange range n) :=
  inferInstanceAs (Decidable (_ ∧ _))

/-- The operators that the code generator calls; `none` is an `OverflowException`. -/
structure SystemDecimal where
  opImplicit : ILMachineType → Int → ILDecimal
  opExplicit : ILMachineType → ILDecimal → Option Int
  opEquality : ILDecimal → ILDecimal → Bool
  opAddition : ILDecimal → ILDecimal → Option ILDecimal
  opSubtraction : ILDecimal → ILDecimal → Option ILDecimal
  ctor : ILInt32 → ILInt32 → ILInt32 → Bool → ILUInt8 → Option ILDecimal

/-- What the documentation of the class says of the operators. -/
structure SystemDecimal.Documented (lib : SystemDecimal) : Prop where
  opImplicit : ∀ t n, InRange t.range n → lib.opImplicit t n = decimalOfInt n
  opExplicit : ∀ t d, lib.opExplicit t d =
    if InRange t.range (integerPart d) then some (integerPart d) else none
  opEquality : ∀ a b, lib.opEquality a b = true ↔ a.toRat = b.toRat
  opAddition : ∀ m n, InRange ILMachineType.decimal.range m →
    InRange ILMachineType.decimal.range n → InRange ILMachineType.decimal.range (m + n) →
    lib.opAddition (decimalOfInt m) (decimalOfInt n) = some (decimalOfInt (m + n))
  ctor : ∀ low middle high negative,
    lib.ctor low middle high negative 0 =
      some ⟨if negative then 0x80000000 else 0, high, middle, low⟩

/-! ### Values -/

namespace StackValue

variable {native : NativeInt}

def toInt : StackValue native → Option Int
  | int32 x => some x.toInt
  | int64 x => some x.toInt
  | nativeInt x => some x.toInt
  | decimal _ => none

def toNat : StackValue native → Option Nat
  | int32 x => some x.toNat
  | int64 x => some x.toNat
  | nativeInt x => some x.toNat
  | decimal _ => none

end StackValue

variable {native : NativeInt}

namespace ConvType

def range (native : NativeInt) : ConvType → Int × Int
  | i1 => (-128, 127)
  | u1 => (0, 255)
  | i2 => (-32768, 32767)
  | u2 => (0, 65535)
  | i4 => (-2147483648, 2147483647)
  | u4 => (0, 4294967295)
  | i8 => (-9223372036854775808, 9223372036854775807)
  | u8 => (0, 18446744073709551615)
  | i => (-2 ^ (native.bits - 1), 2 ^ (native.bits - 1) - 1)
  | u => (0, 2 ^ native.bits - 1)

/-- The type's bits of an integer, on the stack: a short type is extended to 32 bits. -/
def wrap : ConvType → Int → StackValue native
  | i1, n => .int32 ((BitVec.ofInt 8 n).signExtend 32)
  | u1, n => .int32 ((BitVec.ofInt 8 n).setWidth 32)
  | i2, n => .int32 ((BitVec.ofInt 16 n).signExtend 32)
  | u2, n => .int32 ((BitVec.ofInt 16 n).setWidth 32)
  | i4, n | u4, n => .int32 (BitVec.ofInt 32 n)
  | i8, n | u8, n => .int64 (BitVec.ofInt 64 n)
  | i, n | u, n => .nativeInt (BitVec.ofInt native.bits n)

/-- An unsigned type of 64 bits or of the native size extends with zeros. -/
def conv (t : ConvType) (value : StackValue native) : Option (StackValue native) :=
  match t with
  | u8 | u => value.toNat.map fun (n : Nat) => t.wrap (n : Int)
  | _ => value.toInt.map t.wrap

def checked (t : ConvType) (n : Option Int) : Except Fault (StackValue native) :=
  match n with
  | none => .error .invalidProgram
  | some n => if InRange (t.range native) n then .ok (t.wrap n) else .error .overflow

end ConvType

/-- The argument that a parameter of an integer type takes from the stack. -/
def ILMachineType.argument (t : ILMachineType) : StackValue native → Option Int
  | .int32 x =>
    match t with
    | .int8 => some (x.setWidth 8).toInt
    | .uint8 => some (x.setWidth 8).toNat
    | .int16 => some (x.setWidth 16).toInt
    | .uint16 | .char => some (x.setWidth 16).toNat
    | .int32 => some x.toInt
    | .uint32 => some x.toNat
    | _ => none
  | .int64 x =>
    match t with
    | .int64 => some x.toInt
    | .uint64 => some x.toNat
    | _ => none
  | _ => none

/-- What a method that returns an integer type leaves. -/
def ILMachineType.returned (t : ILMachineType) (n : Int) : StackValue native :=
  match t with
  | .int64 | .uint64 => .int64 (BitVec.ofInt 64 n)
  | _ => .int32 (BitVec.ofInt 32 n)

/-- Two numeric operands on their common width; an `int32` is extended for a native one. -/
inductive Operands (native : NativeInt) where
  | int32 (x y : BitVec 32)
  | int64 (x y : BitVec 64)
  | nativeInt (x y : BitVec native.bits)

def operands : StackValue native → StackValue native → Option (Operands native)
  | .int32 x, .int32 y => some (.int32 x y)
  | .int64 x, .int64 y => some (.int64 x y)
  | .nativeInt x, .nativeInt y => some (.nativeInt x y)
  | .int32 x, .nativeInt y => some (.nativeInt (x.signExtend native.bits) y)
  | .nativeInt x, .int32 y => some (.nativeInt x (y.signExtend native.bits))
  | _, _ => none

namespace Operands

def equal : Operands native → Bool
  | int32 x y => x = y
  | int64 x y => x = y
  | nativeInt x y => x = y

def apply (f : {w : Nat} → BitVec w → BitVec w → Except Fault (BitVec w)) :
    Operands native → Except Fault (StackValue native)
  | int32 x y => (f x y).map .int32
  | int64 x y => (f x y).map .int64
  | nativeInt x y => (f x y).map .nativeInt

end Operands

/-- A result that an instruction with an overflow check leaves. -/
def orFault {w : Nat} (fault : Prop) [Decidable fault] (x : BitVec w) : Except Fault (BitVec w) :=
  if fault then .error .overflow else .ok x

/-- What divides by zero, or leaves the type, faults. -/
def orDivFault {w : Nat} (x y result : BitVec w) : Except Fault (BitVec w) :=
  if y = 0 then .error .divideByZero
  else if x = BitVec.intMin w ∧ y = -1 then .error .arithmetic
  else .ok result

def BinOp.apply {w : Nat} (op : BinOp) (x y : BitVec w) : Except Fault (BitVec w) :=
  match op with
  | add => .ok (x + y)
  | addOvf => orFault (x.saddOverflow y) (x + y)
  | addOvfUn => orFault (x.uaddOverflow y) (x + y)
  | sub => .ok (x - y)
  | subOvf => orFault (x.ssubOverflow y) (x - y)
  | subOvfUn => orFault (x.usubOverflow y) (x - y)
  | mul => .ok (x * y)
  | mulOvf => orFault (x.smulOverflow y) (x * y)
  | mulOvfUn => orFault (x.umulOverflow y) (x * y)
  | div => orDivFault x y (x.sdiv y)
  | divUn => if y = 0 then .error .divideByZero else .ok (x.udiv y)
  | rem => orDivFault x y (x.srem y)
  | remUn => if y = 0 then .error .divideByZero else .ok (x.umod y)
  | and => .ok (x &&& y)
  | or => .ok (x ||| y)
  | xor => .ok (x ^^^ y)

/-- The machine masks a count to the width of the value. -/
def ShiftOp.apply {w : Nat} (op : ShiftOp) (x : BitVec w) (count : Nat) : BitVec w :=
  match op with
  | shl => x <<< (count % w)
  | shr => x.sshiftRight (count % w)
  | shrUn => x >>> (count % w)

namespace StackValue

/-- A count is an `int32` or a native integer. -/
def count : StackValue native → Option Nat
  | int32 x => some x.toNat
  | nativeInt x => some x.toNat
  | _ => none

/-- An instruction with one integer operand. -/
def map (f : {w : Nat} → BitVec w → BitVec w) : StackValue native → Option (StackValue native)
  | int32 x => some (int32 (f x))
  | int64 x => some (int64 (f x))
  | nativeInt x => some (nativeInt (f x))
  | decimal _ => none

end StackValue

/-! ### Instructions -/

/-- What a comparison leaves. -/
def ofBool (b : Bool) : StackValue native := .int32 (if b then 1 else 0)

abbrev Stack (native : NativeInt) := List (StackValue native)

def orInvalid {α : Type} (result : Option α) : Except Fault α :=
  result.elim (.error .invalidProgram) .ok

def orOverflow {α : Type} (result : Option α) : Except Fault α :=
  result.elim (.error .overflow) .ok

@[simp] theorem orInvalid_some {α : Type} (x : α) : orInvalid (some x) = .ok x := rfl

@[simp] theorem orOverflow_some {α : Type} (x : α) : orOverflow (some x) = .ok x := rfl

@[simp] theorem orOverflow_none {α : Type} :
    orOverflow (none : Option α) = .error .overflow := rfl

def push (x : StackValue native) (stack : Stack native) : Except Fault (Stack native) :=
  .ok (x :: stack)

def unary (f : StackValue native → Except Fault (StackValue native)) :
    Stack native → Except Fault (Stack native)
  | x :: stack => (f x).bind (push · stack)
  | [] => .error .invalidProgram

/-- The second operand lies on top. -/
def binary (f : StackValue native → StackValue native → Except Fault (StackValue native)) :
    Stack native → Except Fault (Stack native)
  | y :: x :: stack => (f x y).bind (push · stack)
  | _ => .error .invalidProgram

def decimals (f : ILDecimal → ILDecimal → Except Fault (StackValue native)) :
    StackValue native → StackValue native → Except Fault (StackValue native)
  | .decimal x, .decimal y => f x y
  | _, _ => .error .invalidProgram

/-- A call of `op_Explicit`. -/
def explicit (lib : SystemDecimal) (t : ILMachineType) :
    StackValue native → Except Fault (StackValue native)
  | .decimal d => (orOverflow (lib.opExplicit t d)).map t.returned
  | _ => .error .invalidProgram

def construct (lib : SystemDecimal) : Stack native → Except Fault (Stack native)
  | .int32 scale :: .int32 negative :: .int32 high :: .int32 middle :: .int32 low :: stack =>
    (orOverflow (lib.ctor low middle high (negative ≠ 0) (scale.setWidth 8))).bind fun d =>
      push (.decimal d) stack
  | _ => .error .invalidProgram

def ILOp.exec (lib : SystemDecimal) (op : ILOp) : Stack native → Except Fault (Stack native) :=
  match op with
  | ldcI4M1 => push (.int32 (-1))
  | ldcI4N n => push (.int32 (BitVec.ofNat 32 n))
  | ldcI4S x => push (.int32 (x.signExtend 32))
  | ldcI4 x => push (.int32 x)
  | ldcI8 x => push (.int64 x)
  | conv t => unary fun x => orInvalid (t.conv x)
  | convOvf t => unary fun x => t.checked x.toInt
  | convOvfUn t => unary fun x => t.checked (x.toNat.map fun (n : Nat) => (n : Int))
  | ceq => binary fun x y => (orInvalid (operands x y)).map fun ops => ofBool ops.equal
  | bin op => binary fun x y => (orInvalid (operands x y)).bind (·.apply op.apply)
  | shift op => binary fun x y => orInvalid (y.count.bind fun count => x.map (op.apply · count))
  | neg => unary fun x => orInvalid (x.map fun x => -x)
  | not => unary fun x => orInvalid (x.map fun x => ~~~x)
  | opImplicit t =>
    unary fun x => (orInvalid (t.argument x)).map fun n => .decimal (lib.opImplicit t n)
  | opExplicit t => unary (explicit lib t)
  | opEquality => binary (decimals fun x y => .ok (ofBool (lib.opEquality x y)))
  | opAddition => binary (decimals fun x y => (orOverflow (lib.opAddition x y)).map .decimal)
  | opSubtraction =>
    binary (decimals fun x y => (orOverflow (lib.opSubtraction x y)).map .decimal)
  | newDecimal => construct lib

/-- Run the instructions one after the other. -/
def run (lib : SystemDecimal) : List ILOp → Stack native → Except Fault (Stack native)
  | [], stack => .ok stack
  | op :: code, stack => (op.exec lib stack).bind (run lib code)

@[simp] theorem except_bind_ok {α β : Type} (x : α) (f : α → Except Fault β) :
    (Except.ok x).bind f = f x := rfl

@[simp] theorem except_bind_error {α β : Type} (fault : Fault) (f : α → Except Fault β) :
    (Except.error fault).bind f = .error fault := rfl

@[simp] theorem except_map_ok {α β : Type} (x : α) (f : α → β) :
    (Except.ok x : Except Fault α).map f = .ok (f x) := rfl

@[simp] theorem except_map_error {α β : Type} (fault : Fault) (f : α → β) :
    (Except.error fault : Except Fault α).map f = .error fault := rfl

@[simp] theorem push_eq (x : StackValue native) (stack : Stack native) :
    push x stack = .ok (x :: stack) := rfl

@[simp] theorem unary_cons (f : StackValue native → Except Fault (StackValue native))
    (x : StackValue native) (stack : Stack native) :
    unary f (x :: stack) = (f x).bind (push · stack) := rfl

@[simp] theorem binary_cons
    (f : StackValue native → StackValue native → Except Fault (StackValue native))
    (x y : StackValue native) (stack : Stack native) :
    binary f (y :: x :: stack) = (f x y).bind (push · stack) := rfl

variable (lib : SystemDecimal)

@[simp] theorem run_nil (stack : Stack native) : run lib [] stack = .ok stack := rfl

@[simp] theorem run_cons (op : ILOp) (code : List ILOp) (stack : Stack native) :
    run lib (op :: code) stack = (op.exec lib stack).bind (run lib code) := rfl

theorem run_append (code rest : List ILOp) (stack : Stack native) :
    run lib (code ++ rest) stack = (run lib code stack).bind (run lib rest) := by
  induction code generalizing stack with
  | nil => rfl
  | cons op code ih =>
    simp only [List.cons_append, run_cons]
    cases op.exec lib stack with
    | error fault => rfl
    | ok stack => exact ih stack

end Pnet.Codegen
