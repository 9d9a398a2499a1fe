import Pnet.Codegen.GenCast

/-! What a constant is at run time, and what the conversions make of it. -/
namespace Pnet.Codegen
open Pnet.Support Pnet.Engine Pnet.Lib.Extension

variable {native : NativeInt} {w : Nat}

/-- The types that fill a word on the stack. -/
def ILMachineType.isWord : ILMachineType → Bool
  | .boolean | .int8 | .uint8 | .int16 | .uint16 | .char | .int32 | .uint32 => true
  | _ => false

/-- A constant of its type, and the value that stands for it at run time. -/
inductive Leaves : ILEvalValue → StackValue native → Prop
  | word {t : ILMachineType} (ht : t.isWord) {x : ILInt32} (hx : t.Fits x) :
      Leaves (.ofI4 t x) (.int32 x)
  | int64 (x : ILInt64) : Leaves (.ofI8 .int64 x) (.int64 x)
  | uint64 (x : ILUInt64) : Leaves (.ofI8 .uint64 x) (.int64 x)
  | nativeInt (x : ILInt32) : Leaves (.ofI4 .nativeInt x) (.nativeInt (x.signExtend native.bits))
  | nativeUInt (x : ILUInt32) : Leaves (.ofI4 .nativeUInt x) (.nativeInt (x.setWidth native.bits))
  | decimal (d : ILDecimal) : Leaves (.ofDecimal d) (.decimal d)

theorem le_bits (native : NativeInt) : 32 ≤ native.bits := by cases native <;> decide

theorem bits_le (native : NativeInt) : native.bits ≤ 64 := by cases native <;> decide

/-- The number that a constant of an integer type stands for. -/
def ILEvalValue.num (v : ILEvalValue) : Int :=
  match v.valueType with
  | .boolean | .uint8 | .uint16 | .char | .uint32 | .nativeUInt => v.i4Value.toNat
  | .int8 | .int16 | .int32 | .nativeInt => v.i4Value.toInt
  | .int64 => v.i8Value.toInt
  | .uint64 => v.i8Value.toNat
  | .decimal => 0

/-! ### The bits that a conversion keeps -/

/-- The conversion opcodes for a type. -/
def ILMachineType.convType : ILMachineType → ConvType
  | .boolean | .uint8 => .u1
  | .int8 => .i1
  | .int16 => .i2
  | .uint16 | .char => .u2
  | .int32 => .i4
  | .uint32 => .u4
  | .int64 => .i8
  | .uint64 => .u8
  | .nativeInt => .i
  | .nativeUInt | .decimal => .u

/-- The types that a conversion cuts down to. -/
def ILMachineType.isNarrow (t : ILMachineType) : Bool := t.isWord && t ≠ .boolean

/-- The word for a number in a narrow type. -/
def ILMachineType.word (t : ILMachineType) (n : Int) : ILInt32 := castWord t (BitVec.ofInt 32 n)

variable {t : ILMachineType}

theorem castWord_setWidth (x : BitVec w) :
    castWord t (x.setWidth 32) = castWord t x := by
  have cut : ∀ u ≤ 32, (x.setWidth 32).setWidth u = x.setWidth u := fun u hu =>
    BitVec.setWidth_setWidth (by omega)
  cases t <;> simp [castWord, cut]

theorem word_toInt (x : BitVec w) (hw : 32 ≤ w) : t.word x.toInt = castWord t x := by
  rw [ILMachineType.word, ofInt_toInt x hw, castWord_setWidth]

theorem word_toNat (x : BitVec w) : t.word x.toNat = castWord t x := by
  rw [ILMachineType.word, ofInt_toNat, castWord_setWidth]

theorem wrap_narrow (ht : t.isNarrow) (n : Int) :
    (t.convType.wrap n : StackValue native) = .int32 (t.word n) := by
  cases t <;>
    simp_all [ILMachineType.isNarrow, ILMachineType.isWord, ILMachineType.convType, castWord,
      ConvType.wrap, ILMachineType.word, setWidth_ofInt]

/-- What a cast leaves is of the type. -/
theorem fits_word (ht : t.isNarrow) (n : Int) : t.Fits (t.word n) := by
  have cut : ∀ u ≤ 32, ∀ y : BitVec u, (y.signExtend 32).setWidth u = y := fun u hu y => by
    rw [setWidth_signExtend y le_rfl hu, BitVec.setWidth_eq]
  cases t <;> simp_all [ILMachineType.isNarrow, ILMachineType.isWord, castWord,
    ILMachineType.Fits, ILMachineType.word]

theorem range_convType (ht : t.isNarrow) : t.convType.range native = t.range := by
  cases t <;> first | rfl | simp [ILMachineType.isNarrow, ILMachineType.isWord] at ht

theorem conv_narrow (ht : t.isNarrow) (value : StackValue native) :
    t.convType.conv value = value.toInt.map t.convType.wrap := by
  cases t <;> first | rfl | simp [ILMachineType.isNarrow, ILMachineType.isWord] at ht

theorem isWord_of_isNarrow (ht : t.isNarrow) : t.isWord := by
  rw [ILMachineType.isNarrow, Bool.and_eq_true] at ht
  exact ht.1

/-- A number of the type stands in a word as it is. -/
theorem word_of_inRange (ht : t.isNarrow) {n : Int} (hn : InRange t.range n) :
    t.word n = BitVec.ofInt 32 n := by
  obtain ⟨hlow, hhigh⟩ := hn
  cases t <;> simp only [ILMachineType.range] at hlow hhigh <;>
    simp_all only [ILMachineType.isNarrow, ILMachineType.isWord, ILMachineType.word, castWord,
      setWidth_ofInt, BitVec.setWidth_eq, Nat.reduceLeDiff]
  case int8 | int16 => exact signExtend_ofInt (by omega) (by omega) (by omega)
  case uint8 | uint16 | char => exact setWidth_ofInt_of_lt hlow (by omega)

/-! ### The emitted conversions -/

variable (lib : SystemDecimal) (info : ILGenInfo) {value : StackValue native} {n : Int}

/-- What a checked conversion of a number leaves. -/
def converted (info : ILGenInfo) (c : ConvType) (n : Int) (stack : Stack native) :
    Except Fault (Stack native) :=
  if info.overflowInsns ∧ ¬InRange (c.range native) n then .error .overflow
  else .ok (c.wrap n :: stack)

theorem run_convSigned {c : ConvType} (hn : value.toInt = some n)
    (hconv : ¬info.overflowInsns → c.conv value = some (c.wrap n)) (stack : Stack native) :
    run lib (convSigned info c) (value :: stack) = converted info c n stack := by
  rw [convSigned, converted]
  by_cases hovf : info.overflowInsns
  · by_cases hin : InRange (c.range native) n <;>
      simp [ILOp.exec, ConvType.checked, hn, hin, hovf]
  · simp [ILOp.exec, hconv hovf, hovf]

theorem run_convUnsigned {c : ConvType} {n : Nat} (hn : value.toNat = some n)
    (hconv : c.conv value = some (c.wrap n)) (stack : Stack native) :
    run lib (convUnsigned info c) (value :: stack) = converted info c n stack := by
  rw [convUnsigned, converted]
  cases info.overflowInsns with
  | true =>
    by_cases hin : InRange (c.range native) n <;> simp [ILOp.exec, ConvType.checked, hn, hin]
  | false => simp [ILOp.exec, hconv]

theorem run_checkSigned {c : ConvType} (hn : value.toInt = some n)
    (hvalue : value = c.wrap n) (stack : Stack native) :
    run lib (checkSigned info c) (value :: stack) = converted info c n stack := by
  rw [checkSigned, converted]
  cases info.overflowInsns with
  | true =>
    by_cases hin : InRange (c.range native) n <;> simp [ILOp.exec, ConvType.checked, hn, hin]
  | false => simp [← hvalue]

theorem run_checkUnsigned {c : ConvType} {n : Nat} (hn : value.toNat = some n)
    (hvalue : value = c.wrap n) (stack : Stack native) :
    run lib (checkUnsigned info c) (value :: stack) = converted info c n stack := by
  rw [checkUnsigned, converted]
  cases info.overflowInsns with
  | true =>
    by_cases hin : InRange (c.range native) n <;> simp [ILOp.exec, ConvType.checked, hn, hin]
  | false => simp [← hvalue]

/-- No conversion is needed for a number of the type. -/
theorem run_nothing {c : ConvType} (hin : InRange (c.range native) n) (hvalue : value = c.wrap n)
    (stack : Stack native) : run lib [] (value :: stack) = converted info c n stack := by
  rw [converted, if_neg (by simp [hin]), hvalue, run_nil]

/-! ### Agreement -/

/-- If the constant is cast, the emitted conversions leave what the cast constant is, of the type
that is cast to. -/
def CastAgrees (lib : SystemDecimal) (info : ILGenInfo) (v : ILEvalValue)
    (value : StackValue native) (t : ILMachineType) : Prop :=
  ∀ v', ilGenCastConst info v v.valueType t = some v' → v'.valueType = t ∧
    ∃ value' : StackValue native, Leaves v' value' ∧ ∀ stack,
      run lib (ilGenCast info v.valueType t) (value :: stack) = .ok (value' :: stack)

section Agrees

variable {lib info} {v v' : ILEvalValue} {value' : StackValue native}

theorem castAgrees_of_none (hconst : ilGenCastConst info v v.valueType t = none) :
    CastAgrees lib info v value t := by
  intro v' hv'
  rw [hconst] at hv'
  cases hv'

theorem castAgrees_iff (hconst : ilGenCastConst info v v.valueType t = some v')
    (htype : v'.valueType = t)
    (hrun : ∀ stack, run lib (ilGenCast info v.valueType t) (value :: stack) =
      .ok (value' :: stack)) :
    CastAgrees lib info v value t ↔ Leaves v' value' := by
  constructor
  · intro hagrees
    obtain ⟨-, value'', hleaves, hrun'⟩ := hagrees v' hconst
    have heq := (hrun []).symm.trans (hrun' [])
    cases heq
    exact hleaves
  · intro hleaves v'' hv''
    rw [hconst] at hv''
    cases hv''
    exact ⟨htype, value', hleaves, hrun⟩

theorem not_castAgrees_of_fault {fault : Fault}
    (hconst : ilGenCastConst info v v.valueType t = some v')
    (hrun : run lib (ilGenCast info v.valueType t) [value] = .error fault) :
    ¬CastAgrees lib info v value t := by
  intro hagrees
  obtain ⟨-, value', -, hrun'⟩ := hagrees v' hconst
  rw [hrun'] at hrun
  cases hrun

end Agrees

end Pnet.Codegen
