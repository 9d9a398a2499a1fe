import Pnet.Codegen.CastFromDecimal

/-! Casts of integers to decimals. -/
namespace Pnet.Codegen
open Pnet.Support Pnet.Engine Pnet.Lib.Extension

variable {native : NativeInt} {t s : ILMachineType} {v : ILEvalValue} {value : StackValue native}
variable {lib : SystemDecimal} {info : ILGenInfo} (hlib : lib.Documented)

/-- What a cast of a constant to a decimal does. -/
inductive ToDecimalConst (v : ILEvalValue) (s : ILMachineType) : Option ILEvalValue → Prop
  | signed (h : s.isI4 && (s.isSigned || s = .boolean)) :
      ToDecimalConst v s (some (.ofDecimal (ilDecimalFromInt32 v.i4Value)))
  | unsigned (h : s.isI4 && !s.isSigned) :
      ToDecimalConst v s (some (.ofDecimal (ilDecimalFromUInt32 v.i4Value)))
  | int64 (h : s = .int64) : ToDecimalConst v s (some (.ofDecimal (ilDecimalFromInt64 v.i8Value)))
  | uint64 (h : s = .uint64) :
      ToDecimalConst v s (some (.ofDecimal (ilDecimalFromUInt64 v.i8Value)))

theorem toDecimalConst_of_int (info : ILGenInfo) (v : ILEvalValue) (hs : s ≠ .decimal) :
    ToDecimalConst v s (ilGenCastConst info v s .decimal) := by
  cases s <;> first
    | exact absurd rfl hs
    | exact .signed rfl
    | exact .unsigned rfl
    | exact .int64 rfl
    | exact .uint64 rfl

theorem ilGenCastConst_to_decimal (info : ILGenInfo) (h : Leaves v value)
    (hint : v.valueType ≠ .decimal) :
    ilGenCastConst info v v.valueType .decimal = some (.ofDecimal (decimalOfInt v.num)) := by
  have hcast := toDecimalConst_of_int info v hint
  generalize ilGenCastConst info v v.valueType .decimal = result at hcast ⊢
  cases hcast with
  | signed hs => rw [ilDecimalFromInt32_eq, toInt_eq_num h hs]
  | unsigned hs => rw [ilDecimalFromUInt32_eq, num_unsigned (by rw [Bool.and_comm]; exact hs)]
  | int64 hs => rw [ilDecimalFromInt64_eq, ILEvalValue.num, hs]
  | uint64 hs => rw [ilDecimalFromUInt64_eq, ILEvalValue.num, hs]

include hlib in
theorem run_opImplicit {n : Int} (harg : t.argument value = some n) (hin : InRange t.range n)
    (stack : Stack native) :
    run lib [.opImplicit t] (value :: stack) = .ok (.decimal (decimalOfInt n) :: stack) := by
  simp [ILOp.exec, harg, hlib.opImplicit t n hin]

theorem argument_self {x : ILInt32} (hs : s.isNarrow) (hx : s.Fits x) :
    s.argument (.int32 x : StackValue native) = some (ILEvalValue.ofI4 s x).num := by
  cases s <;> first | (cases hs; done) | skip
  case int8 | int16 =>
    have hint := congrArg BitVec.toInt hx
    rw [BitVec.toInt_signExtend_of_le (by decide)] at hint
    exact congrArg some hint
  case uint8 | uint16 | char =>
    have hnat := congrArg BitVec.toNat hx
    rw [BitVec.toNat_setWidth_of_le (by decide)] at hnat
    exact congrArg (fun n : Nat => some (n : Int)) hnat
  case int32 | uint32 => rfl

theorem argument_int32 {x : ILInt32} (h : Leaves (.ofI4 s x) (.int32 x : StackValue native))
    (hs : s.isWord) (hs' : s ≠ .uint32) :
    ILMachineType.int32.argument (.int32 x : StackValue native) =
      some (ILEvalValue.ofI4 s x).num :=
  h.toInt_short hs hs'

theorem toInt_sub_two63 (x : BitVec 64) :
    (x - 0x8000000000000000).toInt = x.toNat - 2 ^ 63 := by
  have hlt := x.isLt
  have hsub : x - 0x8000000000000000 = BitVec.ofInt 64 (x.toNat - 2 ^ 63) := by
    rw [Int.sub_eq_add_neg, BitVec.ofInt_add, ofInt_toNat, BitVec.setWidth_eq]
    exact BitVec.sub_eq_add_neg x _
  rw [hsub]
  exact BitVec.toInt_ofInt_eq_self (by decide) (by omega) (by omega)

include hlib in
theorem run_genUInt64ToDecimal (info : ILGenInfo) (x : BitVec 64) (stack : Stack native) :
    run lib (genUInt64ToDecimal info) (.int64 x :: stack) =
      .ok (.decimal (decimalOfInt x.toNat) :: stack) := by
  have hlt := x.isLt
  by_cases hcls : info.clsCompliant
  · have hin : InRange ILMachineType.int64.range (x.toNat - 2 ^ 63) := by
      change -9223372036854775808 ≤ (x.toNat : Int) - 2 ^ 63 ∧
        (x.toNat : Int) - 2 ^ 63 ≤ 9223372036854775807
      omega
    have harg : ILMachineType.int64.argument
        (.int64 (x - 0x8000000000000000) : StackValue native) = some ((x.toNat : Int) - 2 ^ 63) :=
      congrArg some (toInt_sub_two63 x)
    have hsub : run lib [.bin .sub, .opImplicit .int64]
        (.int64 0x8000000000000000 :: .int64 x :: stack) =
          .ok (.decimal (decimalOfInt (x.toNat - 2 ^ 63)) :: stack) :=
      run_opImplicit hlib harg hin stack
    have hadd : lib.opAddition (decimalOfInt (x.toNat - 2 ^ 63)) (decimalOfInt (2 ^ 63)) =
        some (decimalOfInt x.toNat) := by
      have hsum := hlib.opAddition (x.toNat - 2 ^ 63) (2 ^ 63)
        (by constructor <;> simp only [ILMachineType.range] <;> omega) (by decide)
        (by constructor <;> simp only [ILMachineType.range] <;> omega)
      rwa [Int.sub_add_cancel] at hsum
    rw [genUInt64ToDecimal, if_pos hcls, List.append_assoc, List.append_assoc, run_append,
      run_ilGenUInt64, except_bind_ok, run_append, hsub, except_bind_ok, run_append,
      run_genTwoTo63 hlib, except_bind_ok]
    simp only [run_cons, ILOp.exec, binary_cons, decimals, hadd, orOverflow_some, except_map_ok,
      except_bind_ok, push_eq, run_nil]
  · have hin : InRange ILMachineType.uint64.range x.toNat := by
      change (0 : Int) ≤ x.toNat ∧ (x.toNat : Int) ≤ 18446744073709551615
      omega
    rw [genUInt64ToDecimal, if_neg hcls]
    exact run_opImplicit hlib (t := .uint64) rfl hin stack

/-- What is emitted for a word that is cast to a decimal. -/
inductive WordToDecimal (info : ILGenInfo) (s : ILMachineType) : List ILOp → Prop
  | self (h : s.isNarrow) (hs : s = .uint32 → ¬info.clsCompliant) :
      WordToDecimal info s [.opImplicit s]
  | int32 (h : s ≠ .uint32) : WordToDecimal info s [.opImplicit .int32]
  | boolean (h : s = .boolean) : WordToDecimal info s [.opImplicit .int8]
  | uint32 (h : s = .uint32) (hcls : info.clsCompliant) :
      WordToDecimal info s [.conv .i8, .opImplicit .int64]

theorem wordToDecimal_of_word (info : ILGenInfo) (hs : s.isWord) :
    WordToDecimal info s (ilGenCast info s .decimal) := by
  by_cases hcls : info.clsCompliant
  · have cls : ∀ code code' : List ILOp, (if info.clsCompliant then code else code') = code :=
      fun _ _ => if_pos hcls
    cases s <;> first | (cases hs; done) | skip
    all_goals
      simp only [ilGenCast, genToDecimal, cls]
      first
        | exact .self rfl (fun h => nomatch h)
        | exact .int32 (by decide)
        | exact .uint32 rfl hcls
  · have noCls : ∀ code code' : List ILOp, (if info.clsCompliant then code else code') = code' :=
      fun _ _ => if_neg hcls
    cases s <;> first | (cases hs; done) | skip
    all_goals
      simp only [ilGenCast, genToDecimal, noCls]
      first
        | exact .self rfl (fun _ => hcls)
        | exact .boolean rfl

theorem leaves_decimal_iff {a b : ILDecimal} :
    Leaves (.ofDecimal a) (.decimal b : StackValue native) ↔ a = b := by
  constructor
  · intro h
    cases h
    rfl
  · rintro rfl
    exact .decimal a

/-- The sign bit of a word is not its value. -/
theorem decimalOfInt_toNat_iff (x : ILUInt32) :
    decimalOfInt x.toNat = decimalOfInt x.toInt ↔ (x.toNat : Int) < 2 ^ 31 := by
  constructor
  · intro heq
    by_contra hgreat
    have hflags := congrArg ILDecimal.flags heq
    have hlt := x.isLt
    rw [decimalOfInt, decimalOfInt, toInt_of_great (by omega), if_neg (by omega),
      if_pos (by omega)] at hflags
    exact absurd (show (0 : ILUInt32) = 0x80000000 from hflags) (by decide)
  · intro hlt
    rw [BitVec.toInt_eq_toNat_cond, if_pos (by omega)]

include hlib in
theorem castAgrees_word_to_decimal {x : ILInt32}
    (h : Leaves (.ofI4 s x) (.int32 x : StackValue native)) (hs : s.isWord) (hx : s.Fits x) :
    CastAgrees lib info (.ofI4 s x) (.int32 x : StackValue native) .decimal ↔
      (s = .uint32 → info.clsCompliant → (ILEvalValue.ofI4 s x).num < 2 ^ 31) := by
  have hint : s ≠ .decimal := by
    rintro rfl
    cases hs
  have hconst := ilGenCastConst_to_decimal info h hint
  have hin := h.inRange_num (isI4_of_isWord hs)
  have agrees : ∀ {t : ILMachineType}, ilGenCast info s .decimal = [.opImplicit t] →
      t.argument (.int32 x : StackValue native) = some (ILEvalValue.ofI4 s x).num →
      InRange t.range (ILEvalValue.ofI4 s x).num →
        CastAgrees lib info (.ofI4 s x) (.int32 x : StackValue native) .decimal := by
    intro t hcode harg hin
    refine (castAgrees_iff hconst rfl fun stack => ?_).2 (.decimal _)
    rw [show (ILEvalValue.ofI4 s x).valueType = s from rfl, hcode]
    exact run_opImplicit hlib harg hin stack
  have hcode := wordToDecimal_of_word info hs
  generalize hemitted : ilGenCast info s .decimal = code at hcode
  cases hcode with
  | self hnarrow hfine =>
    exact iff_of_true (agrees hemitted (argument_self hnarrow hx) hin)
      fun huint hcls => absurd hcls (hfine huint)
  | int32 hne =>
    refine iff_of_true (agrees hemitted (argument_int32 h hs hne) ?_) fun huint => absurd huint hne
    have hlt := x.toInt_lt
    have hle := x.le_toInt
    have hread : some x.toInt = some (ILEvalValue.ofI4 s x).num := h.toInt_short hs hne
    rw [← Option.some.inj hread]
    change -2147483648 ≤ x.toInt ∧ x.toInt ≤ 2147483647
    omega
  | boolean hboolean =>
    subst hboolean
    refine iff_of_true (agrees hemitted ?_ ?_) fun huint => nomatch huint
    · rcases hx with rfl | rfl <;> rfl
    · rcases hx with rfl | rfl <;> decide
  | uint32 huint hcls =>
    subst huint
    have hin64 : InRange ILMachineType.int64.range x.toInt := by
      have hlt := x.toInt_lt
      have hle := x.le_toInt
      change -9223372036854775808 ≤ x.toInt ∧ x.toInt ≤ 9223372036854775807
      omega
    have harg : ILMachineType.int64.argument (.int64 (x.signExtend 64) : StackValue native) =
        some x.toInt := congrArg some (BitVec.toInt_signExtend_of_le (by decide))
    have hrun : ∀ stack : Stack native, run lib (ilGenCast info .uint32 .decimal)
        (.int32 x :: stack) = .ok (.decimal (decimalOfInt x.toInt) :: stack) := fun stack => by
      rw [hemitted]
      exact run_opImplicit hlib harg hin64 stack
    rw [castAgrees_iff hconst rfl hrun, leaves_decimal_iff]
    simp only [hcls, forall_const]
    exact decimalOfInt_toNat_iff x

include hlib in
theorem castAgrees_to_decimal (h : Leaves v value) (hint : v.valueType ≠ .decimal) :
    CastAgrees lib info v value .decimal ↔
      (v.valueType = .uint32 → info.clsCompliant → v.num < 2 ^ 31) := by
  have hconst := ilGenCastConst_to_decimal info h hint
  cases h with
  | word hs hx => exact castAgrees_word_to_decimal hlib (.word hs hx) hs hx
  | int64 x =>
    refine iff_of_true ((castAgrees_iff hconst rfl fun stack => ?_).2 (.decimal _)) (nomatch ·)
    exact run_opImplicit hlib (t := .int64) rfl (inRange_long (t := .int64) rfl x) stack
  | uint64 x =>
    refine iff_of_true ((castAgrees_iff hconst rfl fun stack => ?_).2 (.decimal _)) (nomatch ·)
    exact run_genUInt64ToDecimal hlib info x stack
  | nativeInt x =>
    refine iff_of_true ((castAgrees_iff hconst rfl fun stack => ?_).2 (.decimal _)) (nomatch ·)
    have hlt := x.toInt_lt
    have hle := x.le_toInt
    have hread : (x.signExtend native.bits).toInt = x.toInt :=
      BitVec.toInt_signExtend_of_le (le_bits native)
    have harg : ILMachineType.int64.argument (.int64 (BitVec.ofInt 64 x.toInt) : StackValue native) =
        some x.toInt :=
      congrArg some (BitVec.toInt_ofInt_eq_self (by decide) (by omega) (by omega))
    have hin : InRange ILMachineType.int64.range x.toInt := by
      change -9223372036854775808 ≤ x.toInt ∧ x.toInt ≤ 9223372036854775807
      omega
    have hfirst : run lib [.conv .i8] (.nativeInt (x.signExtend native.bits) :: stack) =
        .ok (.int64 (BitVec.ofInt 64 x.toInt) :: stack) := by
      rw [← hread]
      rfl
    change run lib ([.conv .i8] ++ [.opImplicit .int64]) _ = _
    rw [run_append, hfirst]
    exact run_opImplicit hlib harg hin stack
  | nativeUInt x =>
    refine iff_of_true ((castAgrees_iff hconst rfl fun stack => ?_).2 (.decimal _)) (nomatch ·)
    have hfirst : run lib [.conv .u8] (.nativeInt (x.setWidth native.bits) :: stack) =
        .ok (.int64 (x.setWidth 64) :: stack) := by
      rw [← ofInt_toNat x 64, ← BitVec.toNat_setWidth_of_le (b := x) (le_bits native)]
      rfl
    change run lib ([.conv .u8] ++ genUInt64ToDecimal info) _ = _
    rw [run_append, hfirst, except_bind_ok, run_genUInt64ToDecimal hlib,
      BitVec.toNat_setWidth_of_le (by decide)]
    rfl
  | decimal d => exact absurd rfl hint

end Pnet.Codegen
