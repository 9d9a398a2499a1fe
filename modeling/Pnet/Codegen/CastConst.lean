import Pnet.Support.DecimalInt

/-! The machine types of `codegen/cg_gen.h` that a constant of the boolean, character, integer
and decimal types passes through, and the constants themselves. -/
namespace Pnet.Codegen
open Pnet.Support

inductive ILMachineType where
  | boolean
  | int8
  | uint8
  | int16
  | uint16
  | char
  | int32
  | uint32
  | int64
  | uint64
  | nativeInt
  | nativeUInt
  | decimal
deriving DecidableEq, Repr

/-- The flags of the code generator. -/
structure ILGenInfo where
  overflowInsns : Bool
  clsCompliant : Bool
deriving DecidableEq, Repr

/-- The union `un`, by the member that it was written through. -/
inductive ILEvalUnion where
  | i4Value (x : ILInt32)
  | i8Value (x : ILInt64)
  | decValue (d : ILDecimal)
deriving DecidableEq, Repr

structure ILEvalValue where
  valueType : ILMachineType
  un : ILEvalUnion
deriving DecidableEq, Repr

namespace ILEvalValue

/-- `un.i4Value`: the low half of a long value, where the low half comes first. -/
def i4Value (value : ILEvalValue) : ILInt32 :=
  match value.un with
  | .i4Value x => x
  | .i8Value x => x.setWidth 32
  | .decValue d => d.flags

/-- `un.i8Value`; nothing reads it from a union that was written through `i4Value`. -/
def i8Value (value : ILEvalValue) : ILInt64 :=
  match value.un with
  | .i4Value x => x.setWidth 64
  | .i8Value x => x
  | .decValue d => d.high ++ d.flags

def decValue (value : ILEvalValue) : ILDecimal :=
  match value.un with
  | .i4Value x => ⟨x, 0, 0, 0⟩
  | .i8Value x => ⟨x.setWidth 32, (x >>> 32).setWidth 32, 0, 0⟩
  | .decValue d => d

def ofI4 (valueType : ILMachineType) (x : ILInt32) : ILEvalValue := ⟨valueType, .i4Value x⟩

def ofI8 (valueType : ILMachineType) (x : ILInt64) : ILEvalValue := ⟨valueType, .i8Value x⟩

def ofDecimal (d : ILDecimal) : ILEvalValue := ⟨.decimal, .decValue d⟩

variable (t : ILMachineType)

end ILEvalValue

/-- The values that a type of at most 32 bits has, as they lie in a word. -/
def ILMachineType.Fits : ILMachineType → ILInt32 → Prop
  | .boolean, x => x = 0 ∨ x = 1
  | .int8, x => (x.setWidth 8).signExtend 32 = x
  | .uint8, x => (x.setWidth 8).setWidth 32 = x
  | .int16, x => (x.setWidth 16).signExtend 32 = x
  | .uint16, x | .char, x => (x.setWidth 16).setWidth 32 = x
  | _, _ => True

end Pnet.Codegen

/-! ### Constant casts

`ILGenCastConst` of `codegen/cg_cast.tc`: casts of constants, one function for each type that
is cast to. -/
namespace Pnet.Codegen
open Pnet.Support

def decimalToInt32 (value : ILDecimal) (minValue maxValue : Int) : Option ILInt32 :=
  (ilDecimalToInt64 (ilDecimalTruncate value)).bind fun intValue =>
    if intValue.toInt < minValue ∨ intValue.toInt > maxValue then none
    else some (intValue.setWidth 32)

def decimalToUInt32 (value : ILDecimal) (maxValue : ILUInt32) : Option ILInt32 :=
  (ilDecimalToUInt64 (ilDecimalTruncate value)).bind fun intValue =>
    if intValue > maxValue.setWidth 64 then none else some (intValue.setWidth 32)

namespace ILEvalValue

/-- Only the recorded type changes. -/
def retype (value : ILEvalValue) (t : ILMachineType) : ILEvalValue := { value with valueType := t }

end ILEvalValue

/-- The C cast to a type of at most 32 bits, as it lies in a word. -/
def castWord (t : ILMachineType) {w : Nat} (x : BitVec w) : ILInt32 :=
  match t with
  | .int8 => (x.setWidth 8).signExtend 32
  | .uint8 => (x.setWidth 8).setWidth 32
  | .int16 => (x.setWidth 16).signExtend 32
  | .uint16 | .char => (x.setWidth 16).setWidth 32
  | _ => x.setWidth 32

section Narrow

variable (info : ILGenInfo) (value : ILEvalValue) (t : ILMachineType) (minValue maxValue : Int)

/-- From a signed type of at most 32 bits, with the range test of the overflow mode. -/
def castSigned : Option ILEvalValue :=
  if info.overflowInsns ∧
      (value.i4Value.toInt < minValue ∨ value.i4Value.toInt > maxValue) then none
  else some (.ofI4 t (castWord t value.i4Value))

def castUnsigned : Option ILEvalValue :=
  if info.overflowInsns ∧ value.i4Value.toNat > maxValue then none
  else some (.ofI4 t (castWord t value.i4Value))

def castInt64 : Option ILEvalValue :=
  if info.overflowInsns ∧
      (value.i8Value.toInt < minValue ∨ value.i8Value.toInt > maxValue) then none
  else some (.ofI4 t (castWord t value.i8Value))

def castUInt64 : Option ILEvalValue :=
  if info.overflowInsns ∧ value.i8Value.toNat > maxValue then none
  else some (.ofI4 t (castWord t value.i8Value))

end Narrow

section Targets

variable (info : ILGenInfo) (value : ILEvalValue)

def castConstToBoolean : ILMachineType → Option ILEvalValue
  | .boolean => some value
  | .int64 | .uint64 => some (.ofI4 .boolean (if value.i8Value != 0 then 1 else 0))
  | .decimal => some (.ofI4 .boolean (if !ilDecimalIsZero value.decValue then 1 else 0))
  | _ => some (.ofI4 .boolean (if value.i4Value != 0 then 1 else 0))

def castConstToInt8 : ILMachineType → Option ILEvalValue
  | .boolean => some (value.retype .int8)
  | .int8 => some value
  | .int16 | .int32 | .nativeInt => castSigned info value .int8 (-128) 127
  | .uint8 | .uint16 | .char | .uint32 | .nativeUInt => castUnsigned info value .int8 127
  | .int64 => castInt64 info value .int8 (-128) 127
  | .uint64 => castUInt64 info value .int8 127
  | .decimal => (decimalToInt32 value.decValue (-128) 127).map (.ofI4 .int8)

def castConstToUInt8 : ILMachineType → Option ILEvalValue
  | .boolean => some (value.retype .uint8)
  | .uint8 => some value
  | .int8 | .int16 | .int32 | .nativeInt => castSigned info value .uint8 0 255
  | .uint16 | .char | .uint32 | .nativeUInt => castUnsigned info value .uint8 255
  | .int64 => castInt64 info value .uint8 0 255
  | .uint64 => castUInt64 info value .uint8 255
  | .decimal => (decimalToUInt32 value.decValue 255).map (.ofI4 .uint8)

/-- The type that is recorded for the types that need no conversion is `int8`. -/
def castConstToInt16 : ILMachineType → Option ILEvalValue
  | .boolean | .int8 | .uint8 => some (value.retype .int8)
  | .int16 => some value
  | .int32 | .nativeInt => castSigned info value .int16 (-32768) 32767
  | .uint16 | .char | .uint32 | .nativeUInt => castUnsigned info value .int16 32767
  | .int64 => castInt64 info value .int16 (-32768) 32767
  | .uint64 => castUInt64 info value .int16 32767
  | .decimal => (decimalToInt32 value.decValue (-32768) 32767).map (.ofI4 .int16)

def castConstToUInt16 : ILMachineType → Option ILEvalValue
  | .boolean | .uint8 | .char => some (value.retype .uint16)
  | .uint16 => some value
  | .int8 | .int16 | .int32 | .nativeInt => castSigned info value .uint16 0 65535
  | .uint32 | .nativeUInt => castUnsigned info value .uint16 65535
  | .int64 => castInt64 info value .uint16 0 65535
  | .uint64 => castUInt64 info value .uint16 65535
  | .decimal => (decimalToUInt32 value.decValue 65535).map (.ofI4 .uint16)

def castConstToChar : ILMachineType → Option ILEvalValue
  | .boolean | .uint8 | .uint16 => some (value.retype .char)
  | .char => some value
  | .int8 | .int16 | .int32 | .nativeInt => castSigned info value .char 0 65535
  | .uint32 | .nativeUInt => castUnsigned info value .char 65535
  | .int64 => castInt64 info value .char 0 65535
  | .uint64 => castUInt64 info value .char 65535
  | .decimal => (decimalToUInt32 value.decValue 65535).map (.ofI4 .char)

def castConstToInt32 : ILMachineType → Option ILEvalValue
  | .boolean | .int8 | .uint8 | .int16 | .uint16 | .char | .nativeInt => some (value.retype .int32)
  | .uint32 | .nativeUInt =>
    if info.overflowInsns ∧ value.i4Value > 0x7FFFFFFF then none else some (value.retype .int32)
  | .int32 => some value
  | .int64 => castInt64 info value .int32 (-2147483648) 2147483647
  | .uint64 => castUInt64 info value .int32 2147483647
  | .decimal => (decimalToInt32 value.decValue (-2147483648) 2147483647).map (.ofI4 .int32)

def castConstToUInt32 : ILMachineType → Option ILEvalValue
  | .boolean | .uint8 | .uint16 | .char | .nativeUInt => some (value.retype .uint32)
  | .int8 | .int16 | .int32 | .nativeInt =>
    if info.overflowInsns ∧ value.i4Value.toInt < 0 then none else some (value.retype .uint32)
  | .uint32 => some value
  | .int64 => castInt64 info value .uint32 0 4294967295
  | .uint64 => castUInt64 info value .uint32 4294967295
  | .decimal => (decimalToUInt32 value.decValue 0xFFFFFFFF).map (.ofI4 .uint32)

/-- A long constant is cast only if it fits 32 bits, since the size of native integers is not
known. -/
def castConstToNativeInt : ILMachineType → Option ILEvalValue
  | .boolean | .int8 | .uint8 | .int16 | .uint16 | .char | .int32 => some (value.retype .nativeInt)
  | .uint32 | .nativeUInt =>
    if info.overflowInsns ∧ value.i4Value > 0x7FFFFFFF then none else some (value.retype .nativeInt)
  | .nativeInt => some value
  | .int64 =>
    if (value.i8Value.setWidth 32).signExtend 64 ≠ value.i8Value then none
    else some (.ofI4 .nativeInt (value.i8Value.setWidth 32))
  | .uint64 =>
    if (value.i8Value.setWidth 32).setWidth 64 ≠ value.i8Value then none
    else some (.ofI4 .nativeInt (value.i8Value.setWidth 32))
  | .decimal => (decimalToInt32 value.decValue (-2147483648) 2147483647).map (.ofI4 .nativeInt)

def castConstToNativeUInt : ILMachineType → Option ILEvalValue
  | .boolean | .uint8 | .uint16 | .char | .uint32 => some (value.retype .nativeUInt)
  | .int8 | .int16 | .int32 | .nativeInt =>
    if info.overflowInsns ∧ value.i4Value.toInt < 0 then none else some (value.retype .nativeUInt)
  | .nativeUInt => some value
  | .int64 =>
    if (value.i8Value.setWidth 32).signExtend 64 ≠ value.i8Value then none
    else some (.ofI4 .nativeUInt (value.i8Value.setWidth 32))
  | .uint64 =>
    if (value.i8Value.setWidth 32).setWidth 64 ≠ value.i8Value then none
    else some (.ofI4 .nativeUInt (value.i8Value.setWidth 32))
  | .decimal => (decimalToUInt32 value.decValue 0xFFFFFFFF).map (.ofI4 .nativeUInt)

def castConstToInt64 : ILMachineType → Option ILEvalValue
  | .boolean | .int8 | .int16 | .int32 | .nativeInt =>
    some (.ofI8 .int64 (value.i4Value.signExtend 64))
  | .uint8 | .uint16 | .char | .uint32 | .nativeUInt =>
    some (.ofI8 .int64 (value.i4Value.setWidth 64))
  | .int64 => some value
  | .uint64 =>
    if info.overflowInsns ∧ value.i8Value > 0x7FFFFFFFFFFFFFFF then none
    else some (value.retype .int64)
  | .decimal => (ilDecimalToInt64 (ilDecimalTruncate value.decValue)).map (.ofI8 .int64)

def castConstToUInt64 : ILMachineType → Option ILEvalValue
  | .boolean | .int8 | .int16 | .int32 | .nativeInt =>
    if info.overflowInsns ∧ value.i4Value.toInt < 0 then none
    else some (.ofI8 .uint64 (value.i4Value.signExtend 64))
  | .uint8 | .uint16 | .char | .uint32 | .nativeUInt =>
    some (.ofI8 .uint64 (value.i4Value.setWidth 64))
  | .uint64 => some value
  | .int64 =>
    if info.overflowInsns ∧ value.i8Value.toInt < 0 then none else some (value.retype .uint64)
  | .decimal => (ilDecimalToUInt64 (ilDecimalTruncate value.decValue)).map (.ofI8 .uint64)

def castConstToDecimal : ILMachineType → Option ILEvalValue
  | .boolean | .int8 | .int16 | .int32 | .nativeInt =>
    some (.ofDecimal (ilDecimalFromInt32 value.i4Value))
  | .uint8 | .uint16 | .char | .uint32 | .nativeUInt =>
    some (.ofDecimal (ilDecimalFromUInt32 value.i4Value))
  | .int64 => some (.ofDecimal (ilDecimalFromInt64 value.i8Value))
  | .uint64 => some (.ofDecimal (ilDecimalFromUInt64 value.i8Value))
  | .decimal => some value

end Targets

/-- `ILGenCastConst(info, value, fromType, toType)` -/
def ilGenCastConst (info : ILGenInfo) (value : ILEvalValue) (fromType toType : ILMachineType) :
    Option ILEvalValue :=
  match toType with
  | .boolean => castConstToBoolean value fromType
  | .int8 => castConstToInt8 info value fromType
  | .uint8 => castConstToUInt8 info value fromType
  | .int16 => castConstToInt16 info value fromType
  | .uint16 => castConstToUInt16 info value fromType
  | .char => castConstToChar info value fromType
  | .int32 => castConstToInt32 info value fromType
  | .uint32 => castConstToUInt32 info value fromType
  | .int64 => castConstToInt64 info value fromType
  | .uint64 => castConstToUInt64 info value fromType
  | .nativeInt => castConstToNativeInt info value fromType
  | .nativeUInt => castConstToNativeUInt info value fromType
  | .decimal => castConstToDecimal value fromType

end Pnet.Codegen
