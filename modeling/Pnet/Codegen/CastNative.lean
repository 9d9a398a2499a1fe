import Pnet.Codegen.CastLong

/-! Casts of integers to the native types, whose size is known at run time only. -/
namespace Pnet.Codegen
open Pnet.Engine Pnet.Lib.Extension

variable {native : NativeInt} {t s : ILMachineType} {v : ILEvalValue} {value : StackValue native}
variable {lib : SystemDecimal} {info : ILGenInfo}

/-- The native types. -/
def ILMachineType.isNative (t : ILMachineType) : Bool := t = .nativeInt || t = .nativeUInt

/-- A constant that is not cast to a native type. -/
def nativeDenied (info : ILGenInfo) (s t : ILMachineType) (n : Int) : Bool :=
  match s, t with
  | .int64, _ => n < -2147483648 || 2147483648 ≤ n
  | .uint64, _ => 4294967296 ≤ n
  | _, .nativeInt => info.overflowInsns && 2147483648 ≤ n
  | _, _ => info.overflowInsns && n < 0

/-- What a cast of a constant to a native type does. -/
inductive NativeConst (info : ILGenInfo) (v : ILEvalValue) (s t : ILMachineType) :
    Option ILEvalValue → Prop
  | same (h : s = t) : NativeConst info v s t (some v)
  | retypeInt (h : s.isI4 && s ≠ .uint32 && s ≠ .nativeUInt) (ht : t = .nativeInt) :
      NativeConst info v s t (some (v.retype t))
  | retypeUInt (h : s.isI4 && !s.isSigned) (ht : t = .nativeUInt) :
      NativeConst info v s t (some (v.retype t))
  | checkUnsigned (h : s = .uint32 ∨ s = .nativeUInt) (ht : t = .nativeInt) :
      NativeConst info v s t
        (if info.overflowInsns ∧ v.i4Value > 0x7FFFFFFF then none else some (v.retype t))
  | checkSigned (h : s.isSigned && s.isI4) (ht : t = .nativeUInt) : NativeConst info v s t
      (if info.overflowInsns ∧ v.i4Value.toInt < 0 then none else some (v.retype t))
  | int64 (h : s = .int64) : NativeConst info v s t
      (if (v.i8Value.setWidth 32).signExtend 64 ≠ v.i8Value then none
        else some (.ofI4 t (v.i8Value.setWidth 32)))
  | uint64 (h : s = .uint64) : NativeConst info v s t
      (if (v.i8Value.setWidth 32).setWidth 64 ≠ v.i8Value then none
        else some (.ofI4 t (v.i8Value.setWidth 32)))

theorem nativeConst_of_native (info : ILGenInfo) (v : ILEvalValue) (hs : s ≠ .decimal)
    (ht : t.isNative) : NativeConst info v s t (ilGenCastConst info v s t) := by
  cases t <;> first | (cases ht; done) | skip
  all_goals cases s <;> first
    | exact absurd rfl hs
    | exact .same rfl
    | exact .retypeInt rfl rfl
    | exact .retypeUInt rfl rfl
    | exact .checkUnsigned (by decide) rfl
    | exact .checkSigned rfl rfl
    | exact .int64 rfl
    | exact .uint64 rfl

/-- What is emitted for a native type. -/
inductive NativeCode (info : ILGenInfo) (s t : ILMachineType) : List ILOp → Prop
  | same (h : s = t) : NativeCode info s t []
  | signed (h : s.isWord && s.isSigned) : NativeCode info s t [.conv .i]
  | unsigned (h : s.isWord && !s.isSigned) : NativeCode info s t [.conv .u]
  | convSigned (h : s = .int64) : NativeCode info s t (convSigned info t.convType)
  | convUnsigned (h : s = .uint64) : NativeCode info s t (convUnsigned info t.convType)
  | checkUnsigned (h : s = .nativeUInt) (ht : t = .nativeInt) :
      NativeCode info s t (checkUnsigned info .i)
  | checkSigned (h : s = .nativeInt) (ht : t = .nativeUInt) :
      NativeCode info s t (checkSigned info .u)

theorem nativeCode_of_native (info : ILGenInfo) (hs : s ≠ .decimal) (ht : t.isNative) :
    NativeCode info s t (ilGenCast info s t) := by
  cases t <;> first | (cases ht; done) | skip
  all_goals cases s <;> first
    | exact absurd rfl hs
    | exact .same rfl
    | exact .signed rfl
    | exact .unsigned rfl
    | exact .convSigned rfl
    | exact .convUnsigned rfl
    | exact .checkUnsigned rfl rfl
    | exact .checkSigned rfl rfl

theorem nativeDenied_int (info : ILGenInfo) (hs : s.isI4) (n : Int) :
    nativeDenied info s .nativeInt n = (info.overflowInsns && decide (2147483648 ≤ n)) := by
  cases s <;> first | rfl | cases hs

theorem nativeDenied_uint (info : ILGenInfo) (hs : s.isI4) (n : Int) :
    nativeDenied info s .nativeUInt n = (info.overflowInsns && decide (n < 0)) := by
  cases s <;> first | rfl | cases hs

theorem Leaves.retype_num (h : Leaves v value) (hs : v.valueType.isI4) (t : ILMachineType) :
    v.retype t = .ofI4 t (BitVec.ofInt 32 v.num) := by
  rw [h.retype_eq hs, ofInt_num_i4 hs]

theorem num_lt (h : Leaves v value)
    (hs : v.valueType.isI4 && v.valueType ≠ .uint32 && v.valueType ≠ .nativeUInt) :
    v.num < 2147483648 := by
  rw [Bool.and_eq_true, Bool.and_eq_true, decide_eq_true_eq, decide_eq_true_eq] at hs
  have hin := (h.inRange_num hs.1.1).2
  generalize v.valueType = s at hs hin
  have hrange : s.range.2 ≤ 2147483647 := by
    cases s <;> first
      | decide
      | exact absurd rfl hs.1.2
      | exact absurd rfl hs.2
      | cases hs.1.1
  omega

theorem num_nonneg (hs : v.valueType.isI4 && !v.valueType.isSigned) : 0 ≤ v.num := by
  rw [num_unsigned (by rw [Bool.and_comm]; exact hs)]
  exact Int.natCast_nonneg _

theorem ilGenCastConst_native (info : ILGenInfo) (h : Leaves v value)
    (hint : v.valueType ≠ .decimal) (ht : t.isNative) :
    ilGenCastConst info v v.valueType t =
      if nativeDenied info v.valueType t v.num then none
      else some (.ofI4 t (BitVec.ofInt 32 v.num)) := by
  have hcast := nativeConst_of_native info v hint ht
  generalize ilGenCastConst info v v.valueType t = result at hcast ⊢
  cases hcast with
  | same hsame =>
    have hself : v.valueType.isI4 → v = .ofI4 t (BitVec.ofInt 32 v.num) := fun hi4 => by
      rw [← h.retype_num hi4 t, ← hsame]
      rfl
    rw [ILMachineType.isNative, Bool.or_eq_true, decide_eq_true_eq, decide_eq_true_eq] at ht
    rcases ht with ht | ht
    · have hlt := num_lt h (by rw [hsame, ht]; rfl)
      rw [hsame, ht, nativeDenied_int info rfl, if_neg (by simp; omega), ← ht]
      exact congrArg some (hself (by rw [hsame, ht]; rfl))
    · have hnonneg := num_nonneg (v := v) (by rw [hsame, ht]; rfl)
      rw [hsame, ht, nativeDenied_uint info rfl, if_neg (by simp; omega), ← ht]
      exact congrArg some (hself (by rw [hsame, ht]; rfl))
  | retypeInt hs htype =>
    have hi4 := (Bool.and_eq_true _ _ ▸ (Bool.and_eq_true _ _ ▸ hs).1).1
    have hlt := num_lt h hs
    rw [htype, nativeDenied_int info hi4, if_neg (by simp; omega), h.retype_num hi4]
  | retypeUInt hs htype =>
    have hi4 := (Bool.and_eq_true _ _ ▸ hs).1
    have hnonneg := num_nonneg hs
    rw [htype, nativeDenied_uint info hi4, if_neg (by simp; omega), h.retype_num hi4]
  | checkUnsigned hs htype =>
    have hi4 : v.valueType.isI4 := by rcases hs with hs | hs <;> rw [hs] <;> rfl
    have hnum := num_unsigned (v := v) (by rcases hs with hs | hs <;> rw [hs] <;> rfl)
    have hdenied : 2147483647#32 < v.i4Value ↔ 2147483648 ≤ v.num := by
      rw [hnum, BitVec.lt_def]
      change 2147483647 < v.i4Value.toNat ↔ (2147483648 : Int) ≤ v.i4Value.toNat
      omega
    rw [htype, nativeDenied_int info hi4, h.retype_num hi4]
    simp [hdenied]
  | checkSigned hs htype =>
    have hi4 := (Bool.and_eq_true _ _ ▸ hs).2
    rw [htype, nativeDenied_uint info hi4, h.retype_num hi4, num_signed hs]
    simp
  | int64 hs =>
    obtain ⟨x, hv, rfl⟩ := h.long_cases (hs ▸ rfl)
    rw [hs] at hv
    subst hv
    have hfits := signExtend_fits_iff x (by decide : 0 < 32) (by decide)
    have hdenied : nativeDenied info .int64 t x.toInt = true ↔
        ¬(x.setWidth 32).signExtend 64 = x := by
      simp only [nativeDenied, Bool.or_eq_true, decide_eq_true_eq, hfits]
      omega
    have hbits : BitVec.ofInt 32 x.toInt = x.setWidth 32 := ofInt_toInt x (by decide)
    exact if_congr hdenied.symm rfl (congrArg (fun y => some (ILEvalValue.ofI4 t y)) hbits.symm)
  | uint64 hs =>
    obtain ⟨x, hv, rfl⟩ := h.long_cases (hs ▸ rfl)
    rw [hs] at hv
    subst hv
    have hfits := setWidth_fits_iff x (by decide : 32 ≤ 64)
    have hdenied : nativeDenied info .uint64 t x.toNat = true ↔
        ¬(x.setWidth 32).setWidth 64 = x := by
      simp only [nativeDenied, decide_eq_true_eq, hfits]
      omega
    have hbits : BitVec.ofInt 32 x.toNat = x.setWidth 32 := ofInt_toNat x 32
    exact if_congr hdenied.symm rfl (congrArg (fun y => some (ILEvalValue.ofI4 t y)) hbits.symm)

theorem converted_native (info : ILGenInfo) (ht : t.isNative) {n : Int}
    (hin : info.overflowInsns → InRange (t.convType.range native) n) (stack : Stack native) :
    converted info t.convType n stack = .ok (.nativeInt (BitVec.ofInt native.bits n) :: stack) := by
  rw [converted, if_neg (by simpa using hin)]
  cases t <;> first | rfl | cases ht

/-- A word that is cast to a native type is in its range. -/
theorem inRange_native (h : Leaves v value) (hi4 : v.valueType.isI4) (ht : t.isNative)
    (hdenied : ¬nativeDenied info v.valueType t v.num) (hovf : info.overflowInsns) :
    InRange (t.convType.range native) v.num := by
  have hbounds := num_bounds h hi4
  rw [ILMachineType.isNative, Bool.or_eq_true, decide_eq_true_eq, decide_eq_true_eq] at ht
  rcases ht with rfl | rfl
  · rw [nativeDenied_int info hi4, hovf] at hdenied
    cases native <;> simp [ILMachineType.convType, ConvType.range, InRange, NativeInt.bits] at * <;>
      omega
  · rw [nativeDenied_uint info hi4, hovf] at hdenied
    cases native <;> simp [ILMachineType.convType, ConvType.range, InRange, NativeInt.bits] at * <;>
      omega

theorem run_cast_native (lib : SystemDecimal) (info : ILGenInfo) (h : Leaves v value)
    (hint : v.valueType ≠ .decimal) (ht : t.isNative)
    (hdenied : ¬nativeDenied info v.valueType t v.num) (stack : Stack native) :
    run lib (ilGenCast info v.valueType t) (value :: stack) =
      converted info t.convType v.num stack := by
  have hcode := nativeCode_of_native info hint ht
  generalize ilGenCast info v.valueType t = code at hcode ⊢
  cases hcode with
  | same hsame =>
    have hi4 : v.valueType.isI4 := by
      rw [hsame]
      cases t <;> first | rfl | cases ht
    rw [converted_native info ht (inRange_native h hi4 ht hdenied), run_nil]
    rw [ILMachineType.isNative, Bool.or_eq_true, decide_eq_true_eq, decide_eq_true_eq] at ht
    rcases ht with ht | ht
    · obtain ⟨x, rfl, rfl⟩ := h.nativeInt_cases (hsame.trans ht)
      rfl
    · obtain ⟨x, rfl, rfl⟩ := h.nativeUInt_cases (hsame.trans ht)
      rw [← ofInt_toNat]
      rfl
  | signed hs =>
    rw [Bool.and_eq_true] at hs
    rw [converted_native info ht (inRange_native h (isI4_of_isWord hs.1) ht hdenied)]
    simp [ILOp.exec, ConvType.conv, h.toInt hs.2, ConvType.wrap]
  | unsigned hs =>
    rw [Bool.and_eq_true] at hs
    obtain ⟨n, hn, hnum⟩ := h.toNat hint hs.2
    rw [converted_native info ht (inRange_native h (isI4_of_isWord hs.1) ht hdenied), hnum]
    simp [ILOp.exec, ConvType.conv, hn, ConvType.wrap]
  | convSigned hs =>
    obtain ⟨x, hv, rfl⟩ := h.long_cases (hs ▸ rfl)
    rw [hs] at hv
    subst hv
    refine run_convSigned lib info rfl (fun _ => ?_) stack
    have hbits : BitVec.ofInt native.bits x.toNat = BitVec.ofInt native.bits x.toInt := by
      rw [ofInt_toNat, ofInt_toInt x (bits_le native)]
    cases t <;> first | (cases ht; done) | skip
    · rfl
    · exact congrArg (fun y => some (StackValue.nativeInt y)) hbits
  | convUnsigned hs =>
    obtain ⟨x, hv, rfl⟩ := h.long_cases (hs ▸ rfl)
    rw [hs] at hv
    subst hv
    refine run_convUnsigned lib info rfl ?_ stack
    have hbits : BitVec.ofInt native.bits x.toInt = BitVec.ofInt native.bits x.toNat := by
      rw [ofInt_toNat, ofInt_toInt x (bits_le native)]
    cases t <;> first | (cases ht; done) | skip
    · exact congrArg (fun y => some (StackValue.nativeInt y)) hbits
    · rfl
  | checkUnsigned hs htype =>
    obtain ⟨x, rfl, rfl⟩ := h.nativeUInt_cases hs
    subst htype
    have hx : (.nativeInt (x.setWidth native.bits) : StackValue native).toNat = some x.toNat :=
      congrArg some (BitVec.toNat_setWidth_of_le (le_bits native))
    have hvalue : (.nativeInt (x.setWidth native.bits) : StackValue native) =
        ConvType.i.wrap x.toNat :=
      congrArg StackValue.nativeInt (ofInt_toNat x native.bits).symm
    exact run_checkUnsigned lib info hx hvalue stack
  | checkSigned hs htype =>
    obtain ⟨x, rfl, rfl⟩ := h.nativeInt_cases hs
    subst htype
    have hx : (.nativeInt (x.signExtend native.bits) : StackValue native).toInt = some x.toInt :=
      congrArg some (BitVec.toInt_signExtend_of_le (le_bits native))
    exact run_checkSigned lib info hx rfl stack

/-! ### Agreement -/

theorem leaves_nativeInt_iff {x : ILInt32} {y : BitVec native.bits} :
    Leaves (.ofI4 .nativeInt x) (.nativeInt y) ↔ x.signExtend native.bits = y := by
  constructor
  · intro h
    cases h
    rfl
  · rintro rfl
    exact .nativeInt x

theorem leaves_nativeUInt_iff {x : ILUInt32} {y : BitVec native.bits} :
    Leaves (.ofI4 .nativeUInt x) (.nativeInt y) ↔ x.setWidth native.bits = y := by
  constructor
  · intro h
    cases h
    rfl
  · rintro rfl
    exact .nativeUInt x

/-- What is not denied fits 32 bits with or without a sign. -/
theorem bounds_of_not_denied (h : Leaves v value) (hint : v.valueType ≠ .decimal)
    (hdenied : ¬nativeDenied info v.valueType t v.num) :
    -2147483648 ≤ v.num ∧ v.num ≤ 4294967295 := by
  by_cases hi4 : v.valueType.isI4
  · exact num_bounds h hi4
  · have hlong : v.valueType.isLong := by
      generalize v.valueType = s at hi4 hint
      cases s <;> first | rfl | exact absurd rfl hi4 | exact absurd rfl hint
    obtain ⟨x, hv, -⟩ := h.long_cases hlong
    have hin := inRange_long hlong x
    rw [← hv] at hin
    generalize v.valueType = s at hlong hdenied hin
    cases s <;> first | (cases hlong; done) | skip
    · simp only [nativeDenied, Bool.or_eq_true, decide_eq_true_eq] at hdenied
      omega
    · have hnonneg : 0 ≤ v.num := hin.1
      simp only [nativeDenied, decide_eq_true_eq] at hdenied
      omega

theorem castAgrees_native (h : Leaves v value) (hint : v.valueType ≠ .decimal) (ht : t.isNative)
    (hdenied : ¬nativeDenied info v.valueType t v.num) :
    CastAgrees lib info v value t ↔
      (info.overflowInsns → InRange (t.convType.range native) v.num) ∧
        Leaves (.ofI4 t (BitVec.ofInt 32 v.num))
          (.nativeInt (BitVec.ofInt native.bits v.num) : StackValue native) := by
  have hconst := ilGenCastConst_native info h hint ht
  rw [if_neg hdenied] at hconst
  have hrun := run_cast_native lib info h hint ht hdenied
  by_cases hin : info.overflowInsns → InRange (t.convType.range native) v.num
  · simp only [converted_native info ht hin] at hrun
    rw [castAgrees_iff hconst rfl hrun, and_iff_right hin]
  · have hfault : run lib (ilGenCast info v.valueType t) [value] = .error .overflow := by
      rw [hrun, converted, if_pos (by simpa using hin)]
    simp [not_castAgrees_of_fault hconst hfault, hin]

section Bounds

variable {n : Int} (hlow : -2147483648 ≤ n) (hhigh : n ≤ 4294967295)
include hlow hhigh

theorem leaves_nativeInt_ofInt : Leaves (.ofI4 .nativeInt (BitVec.ofInt 32 n))
    (.nativeInt (BitVec.ofInt native.bits n) : StackValue native) ↔
      native = .int32 ∨ n < 2147483648 := by
  rw [leaves_nativeInt_iff]
  cases native with
  | int32 => simp [NativeInt.bits]
  | int64 =>
    constructor
    · intro heq
      have hint := congrArg BitVec.toInt heq
      change ((BitVec.ofInt 32 n).signExtend 64).toInt = (BitVec.ofInt 64 n).toInt at hint
      rw [BitVec.toInt_signExtend_of_le (by decide),
        BitVec.toInt_ofInt_eq_self (w := 64) (by decide) (by omega) (by omega)] at hint
      have hlt := (BitVec.ofInt 32 n).toInt_lt
      omega
    · rintro (hnative | hlt)
      · cases hnative
      · exact signExtend_ofInt (by decide) (by omega) (by omega)

theorem leaves_nativeUInt_ofInt : Leaves (.ofI4 .nativeUInt (BitVec.ofInt 32 n))
    (.nativeInt (BitVec.ofInt native.bits n) : StackValue native) ↔
      native = .int32 ∨ 0 ≤ n := by
  rw [leaves_nativeUInt_iff]
  cases native with
  | int32 => simp [NativeInt.bits]
  | int64 =>
    constructor
    · intro heq
      have hint := congrArg BitVec.toInt heq
      change ((BitVec.ofInt 32 n).setWidth 64).toInt = (BitVec.ofInt 64 n).toInt at hint
      rw [toInt_setWidth_of_lt _ (by decide),
        BitVec.toInt_ofInt_eq_self (w := 64) (by decide) (by omega) (by omega)] at hint
      omega
    · rintro (hnative | hnonneg)
      · cases hnative
      · exact setWidth_ofInt_of_lt hnonneg (by omega)

theorem inRange_i : InRange (ConvType.i.range native) n ↔ native = .int64 ∨ n < 2147483648 := by
  cases native <;> simp [ConvType.range, InRange, NativeInt.bits] <;> omega

theorem inRange_u : InRange (ConvType.u.range native) n ↔ 0 ≤ n := by
  cases native <;> simp [ConvType.range, InRange, NativeInt.bits] <;> omega

end Bounds

theorem castAgrees_nativeInt (h : Leaves v value) (hint : v.valueType ≠ .decimal) :
    CastAgrees lib info v value .nativeInt ↔
      nativeDenied info v.valueType .nativeInt v.num ∨ v.num < 2147483648 ∨
        native = .int32 ∧ ¬info.overflowInsns := by
  by_cases hdenied : nativeDenied info v.valueType .nativeInt v.num
  · have hconst := ilGenCastConst_native info h hint (t := .nativeInt) rfl
    rw [if_pos hdenied] at hconst
    simp [castAgrees_of_none hconst, hdenied]
  · obtain ⟨hlow, hhigh⟩ := bounds_of_not_denied h hint hdenied
    rw [castAgrees_native h hint rfl hdenied, leaves_nativeInt_ofInt hlow hhigh,
      ILMachineType.convType, inRange_i hlow hhigh]
    cases native <;> cases info.overflowInsns <;> simp [hdenied]

theorem castAgrees_nativeUInt (h : Leaves v value) (hint : v.valueType ≠ .decimal) :
    CastAgrees lib info v value .nativeUInt ↔
      nativeDenied info v.valueType .nativeUInt v.num ∨ 0 ≤ v.num ∨
        native = .int32 ∧ ¬info.overflowInsns := by
  by_cases hdenied : nativeDenied info v.valueType .nativeUInt v.num
  · have hconst := ilGenCastConst_native info h hint (t := .nativeUInt) rfl
    rw [if_pos hdenied] at hconst
    simp [castAgrees_of_none hconst, hdenied]
  · obtain ⟨hlow, hhigh⟩ := bounds_of_not_denied h hint hdenied
    rw [castAgrees_native h hint rfl hdenied, leaves_nativeUInt_ofInt hlow hhigh,
      ILMachineType.convType, inRange_u hlow hhigh]
    cases native <;> cases info.overflowInsns <;> simp [hdenied]

end Pnet.Codegen
