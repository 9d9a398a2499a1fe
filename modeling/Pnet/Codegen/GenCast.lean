import Pnet.Codegen.ILMachine

/-! The conversions that `ILGenCast` of `codegen/cg_cast.tc` emits, one function for each type
that is cast to, and the loading of constants of `codegen/cg_utils.c`. -/
namespace Pnet.Codegen

/-! ### Loading constants -/

def ilGenInt32 (value : ILInt32) : List ILOp :=
  if value = -1 then [.ldcI4M1]
  else if 0 ≤ value.toInt ∧ value.toInt ≤ 8 then [.ldcI4N (Fin.ofNat 9 value.toNat)]
  else if -128 ≤ value.toInt ∧ value.toInt ≤ 127 then [.ldcI4S (value.setWidth 8)]
  else [.ldcI4 value]

def ilGenUInt32 (value : ILUInt32) : List ILOp :=
  if value = -1 then [.ldcI4M1]
  else if value ≤ 8 then [.ldcI4N (Fin.ofNat 9 value.toNat)]
  else if value ≤ 127 ∨ value ≥ 0xFFFFFF80 then [.ldcI4S ((value &&& 0xFF).setWidth 8)]
  else [.ldcI4 value]

def ilGenInt64 (value : ILInt64) : List ILOp :=
  if -2147483648 ≤ value.toInt ∧ value.toInt < 2147483648 then
    ilGenInt32 (value.setWidth 32) ++ [.conv .i8]
  else [.ldcI8 value]

def ilGenUInt64 (value : ILUInt64) : List ILOp :=
  if value < 0x100000000 then ilGenUInt32 (value.setWidth 32) ++ [.conv .u8]
  else if value ≥ 0xFFFFFFFF80000000 then ilGenInt32 (value.setWidth 32) ++ [.conv .i8]
  else [.ldcI8 value]

def ilGenIntNative (value : ILInt32) : List ILOp := ilGenInt32 value ++ [.conv .i]

def ilGenUIntNative (value : ILUInt32) : List ILOp := ilGenUInt32 value ++ [.conv .u]

/-! ### Casts -/

/-- Convert a signed input value. -/
def convSigned (info : ILGenInfo) (t : ConvType) : List ILOp :=
  if info.overflowInsns then [.convOvf t] else [.conv t]

/-- Convert an unsigned input value. -/
def convUnsigned (info : ILGenInfo) (t : ConvType) : List ILOp :=
  if info.overflowInsns then [.convOvfUn t] else [.conv t]

/-- Convert a signed input value, but only in overflow mode. -/
def checkSigned (info : ILGenInfo) (t : ConvType) : List ILOp :=
  if info.overflowInsns then [.convOvf t] else []

/-- Convert an unsigned input value, but only in overflow mode. -/
def checkUnsigned (info : ILGenInfo) (t : ConvType) : List ILOp :=
  if info.overflowInsns then [.convOvfUn t] else []

def genToBoolean : ILMachineType → List ILOp
  | .boolean => []
  | .int64 | .uint64 => [.ldcI4N 0, .conv .i8, .ceq, .ldcI4N 1, .bin .xor]
  | .decimal => [.ldcI4N 0, .opImplicit .int32, .opEquality]
  | _ => [.ldcI4N 0, .ceq, .ldcI4N 1, .bin .xor]

def genToInt8 (info : ILGenInfo) : ILMachineType → List ILOp
  | .boolean | .int8 => []
  | .int16 | .int32 | .int64 | .nativeInt => convSigned info .i1
  | .uint8 | .uint16 | .uint32 | .uint64 | .nativeUInt | .char => convUnsigned info .i1
  | .decimal =>
    if info.clsCompliant then [.opExplicit .int32, .convOvf .i1] else [.opExplicit .int8]

def genToUInt8 (info : ILGenInfo) : ILMachineType → List ILOp
  | .boolean | .uint8 => []
  | .int8 | .int16 | .int32 | .int64 | .nativeInt => convSigned info .u1
  | .uint16 | .uint32 | .uint64 | .nativeUInt | .char => convUnsigned info .u1
  | .decimal => [.opExplicit .uint8]

def genToInt16 (info : ILGenInfo) : ILMachineType → List ILOp
  | .boolean | .int8 | .uint8 | .int16 => []
  | .int32 | .int64 | .nativeInt => convSigned info .i2
  | .uint16 | .uint32 | .uint64 | .nativeUInt | .char => convUnsigned info .i2
  | .decimal => [.opExplicit .int16]

/-- To `uint16` and to `char`, but for a decimal. -/
def genToUnsigned16 (info : ILGenInfo) : ILMachineType → List ILOp
  | .int8 | .int16 | .int32 | .int64 | .nativeInt => convSigned info .u2
  | .uint32 | .uint64 | .nativeUInt => convUnsigned info .u2
  | _ => []

def genToUInt16 (info : ILGenInfo) : ILMachineType → List ILOp
  | .decimal =>
    if info.clsCompliant then [.opExplicit .int32, .convOvf .u2] else [.opExplicit .uint16]
  | fromType => genToUnsigned16 info fromType

def genToChar (info : ILGenInfo) : ILMachineType → List ILOp
  | .decimal => [.opExplicit .char]
  | fromType => genToUnsigned16 info fromType

def genToInt32 (info : ILGenInfo) : ILMachineType → List ILOp
  | .boolean | .int8 | .uint8 | .int16 | .uint16 | .int32 | .char => []
  | .int64 | .nativeInt => convSigned info .i4
  | .uint32 => checkUnsigned info .i4
  | .uint64 | .nativeUInt => convUnsigned info .i4
  | .decimal => [.opExplicit .int32]

def genToUInt32 (info : ILGenInfo) : ILMachineType → List ILOp
  | .boolean | .uint8 | .uint16 | .uint32 | .char => []
  | .int8 | .int16 | .int32 => checkSigned info .u4
  | .int64 | .nativeInt => convSigned info .u4
  | .uint64 | .nativeUInt => convUnsigned info .u4
  | .decimal =>
    if info.clsCompliant then [.opExplicit .int64, .convOvf .u4] else [.opExplicit .uint32]

def genToInt64 (info : ILGenInfo) : ILMachineType → List ILOp
  | .boolean | .int8 | .uint8 | .int16 | .uint16 | .int32 | .nativeInt | .char => [.conv .i8]
  | .uint32 | .nativeUInt => [.conv .u8]
  | .int64 => []
  | .uint64 => checkUnsigned info .i8
  | .decimal => [.opExplicit .int64]

/-- The decimal 0x8000000000000000. -/
def genTwoTo63 : List ILOp :=
  ilGenInt32 0 ++ ilGenInt32 0x80000000 ++ ilGenInt32 0 ++ ilGenInt32 0 ++ ilGenInt32 0 ++
    [.newDecimal]

def genToUInt64 (info : ILGenInfo) : ILMachineType → List ILOp
  | .int8 | .int16 | .int32 | .nativeInt => convSigned info .u8
  | .boolean | .uint8 | .uint16 | .uint32 | .nativeUInt | .char => [.conv .u8]
  | .uint64 => []
  | .int64 => checkSigned info .u8
  | .decimal =>
    -- without a conversion from decimal to uint64: subtract 2 ^ 63, convert to int64, and add
    -- 2 ^ 63 again
    if info.clsCompliant then
      genTwoTo63 ++ [.opSubtraction, .opExplicit .int64] ++ ilGenUInt64 0x8000000000000000 ++
        [.bin .add]
    else [.opExplicit .uint64]

def genToNativeInt (info : ILGenInfo) : ILMachineType → List ILOp
  | .int8 | .int16 | .int32 => [.conv .i]
  | .boolean | .uint8 | .uint16 | .uint32 | .char => [.conv .u]
  | .nativeInt => []
  | .int64 => convSigned info .i
  | .nativeUInt => checkUnsigned info .i
  | .uint64 => convUnsigned info .i
  | .decimal => [.opExplicit .int64, .convOvf .i]

def genToNativeUInt (info : ILGenInfo) : ILMachineType → List ILOp
  | .int8 | .int16 | .int32 => [.conv .i]
  | .boolean | .uint8 | .uint16 | .uint32 | .char => [.conv .u]
  | .nativeUInt => []
  | .int64 => convSigned info .u
  | .nativeInt => checkSigned info .u
  | .uint64 => convUnsigned info .u
  | .decimal => genToUInt64 info .decimal ++ [.convOvfUn .u]

def genUInt64ToDecimal (info : ILGenInfo) : List ILOp :=
  if info.clsCompliant then
    ilGenUInt64 0x8000000000000000 ++ [.bin .sub, .opImplicit .int64] ++ genTwoTo63 ++
      [.opAddition]
  else [.opImplicit .uint64]

def genToDecimal (info : ILGenInfo) : ILMachineType → List ILOp
  | .boolean | .int8 => if info.clsCompliant then [.opImplicit .int32] else [.opImplicit .int8]
  | .uint8 => [.opImplicit .uint8]
  | .int16 => [.opImplicit .int16]
  | .uint16 => if info.clsCompliant then [.opImplicit .int32] else [.opImplicit .uint16]
  | .char => [.opImplicit .char]
  | .int32 => [.opImplicit .int32]
  | .uint32 =>
    if info.clsCompliant then [.conv .i8, .opImplicit .int64] else [.opImplicit .uint32]
  | .int64 => [.opImplicit .int64]
  | .uint64 => genUInt64ToDecimal info
  | .nativeInt => [.conv .i8, .opImplicit .int64]
  | .nativeUInt => .conv .u8 :: genUInt64ToDecimal info
  | .decimal => []

/-- `ILGenCast(info, fromType, toType)` -/
def ilGenCast (info : ILGenInfo) (fromType toType : ILMachineType) : List ILOp :=
  match toType with
  | .boolean => genToBoolean fromType
  | .int8 => genToInt8 info fromType
  | .uint8 => genToUInt8 info fromType
  | .int16 => genToInt16 info fromType
  | .uint16 => genToUInt16 info fromType
  | .char => genToChar info fromType
  | .int32 => genToInt32 info fromType
  | .uint32 => genToUInt32 info fromType
  | .int64 => genToInt64 info fromType
  | .uint64 => genToUInt64 info fromType
  | .nativeInt => genToNativeInt info fromType
  | .nativeUInt => genToNativeUInt info fromType
  | .decimal => genToDecimal info fromType

end Pnet.Codegen

/-! ### What the loaded constants leave

The instructions that load a constant leave it. -/
namespace Pnet.Codegen
open Pnet.Engine Pnet.Lib.Extension

variable {native : NativeInt} (lib : SystemDecimal) (stack : Stack native)

theorem run_ldcI4N {x : ILInt32} (hx : x.toNat ≤ 8) :
    run lib [.ldcI4N (Fin.ofNat 9 x.toNat)] stack = .ok (.int32 x :: stack) := by
  have hn : (Fin.ofNat 9 x.toNat : Nat) = x.toNat := Nat.mod_eq_of_lt (by omega)
  simp only [run_cons, ILOp.exec, push_eq, except_bind_ok, run_nil, hn, BitVec.ofNat_toNat,
    BitVec.setWidth_eq]

theorem run_ldcI4S {x : ILInt32} (hlow : -128 ≤ x.toInt) (hhigh : x.toInt ≤ 127) :
    run lib [.ldcI4S (x.setWidth 8)] stack = .ok (.int32 x :: stack) := by
  have hx := (signExtend_fits_iff x (by decide : 0 < 8) (by decide)).2 ⟨hlow, by omega⟩
  simp only [run_cons, ILOp.exec, push_eq, except_bind_ok, run_nil, hx]

@[simp] theorem run_ilGenInt32 (x : ILInt32) :
    run lib (ilGenInt32 x) stack = .ok (.int32 x :: stack) := by
  rw [ilGenInt32]
  split
  case isTrue hx => rw [hx]; rfl
  · split
    case isTrue hsmall =>
      apply run_ldcI4N
      have hnat := toNat_of_nonneg hsmall.1
      omega
    · split
      case isTrue hbyte => exact run_ldcI4S lib stack hbyte.1 hbyte.2
      · rfl

/-- A great value without a sign is a small negative one. -/
theorem toInt_of_great {w : Nat} {x : BitVec w} (hx : 2 ^ w ≤ 2 * x.toNat) :
    x.toInt = x.toNat - (2 ^ w : Nat) := by
  rw [BitVec.toInt_eq_toNat_cond, if_neg (by omega)]

@[simp] theorem run_ilGenUInt32 (x : ILUInt32) :
    run lib (ilGenUInt32 x) stack = .ok (.int32 x :: stack) := by
  have hlt := x.isLt
  rw [ilGenUInt32]
  split
  case isTrue hx => rw [hx]; rfl
  · split
    case isTrue hsmall =>
      apply run_ldcI4N
      exact BitVec.le_def.1 hsmall
    · split
      case isTrue hbyte =>
        have hmask : (x &&& 0xFF).setWidth 8 = x.setWidth 8 := by
          rw [BitVec.setWidth_and]
          exact BitVec.and_allOnes
        have hbounds : -128 ≤ x.toInt ∧ x.toInt ≤ 127 := by
          rcases hbyte with hle | hge
          · have hnat : x.toNat ≤ 127 := BitVec.le_def.1 hle
            rw [BitVec.toInt_eq_toNat_cond, if_pos (by omega)]
            omega
          · have hnat : 0xFFFFFF80 ≤ x.toNat := BitVec.le_def.1 hge
            rw [toInt_of_great (by omega)]
            omega
        rw [hmask]
        exact run_ldcI4S lib stack hbounds.1 hbounds.2
      · rfl

theorem run_conv_i8 (y : ILInt32) :
    run lib [.conv .i8] (.int32 y :: stack) = .ok (.int64 (y.signExtend 64) :: stack) := rfl

theorem run_conv_u8 (y : ILUInt32) :
    run lib [.conv .u8] (.int32 y :: stack) = .ok (.int64 (y.setWidth 64) :: stack) := by
  rw [← ofInt_toNat]
  rfl

@[simp] theorem run_ilGenUInt64 (x : ILUInt64) :
    run lib (ilGenUInt64 x) stack = .ok (.int64 x :: stack) := by
  have hlt := x.isLt
  rw [ilGenUInt64]
  split
  case isTrue hsmall =>
    have hx := (setWidth_fits_iff x (by decide : 32 ≤ 64)).2 (BitVec.lt_def.1 hsmall)
    rw [run_append, run_ilGenUInt32, except_bind_ok, run_conv_u8, hx]
  · split
    case isTrue hgreat =>
      have hnat : 0xFFFFFFFF80000000 ≤ x.toNat := BitVec.le_def.1 hgreat
      have hint := toInt_of_great (x := x) (by omega)
      have hx := (signExtend_fits_iff x (by decide : 0 < 32) (by decide)).2 (by omega)
      rw [run_append, run_ilGenInt32, except_bind_ok, run_conv_i8, hx]
    · rfl

end Pnet.Codegen
