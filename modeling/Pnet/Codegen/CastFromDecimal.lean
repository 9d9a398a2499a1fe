import Pnet.Codegen.CastNative

/-! Casts of decimals to the other types. -/
namespace Pnet.Codegen
open Pnet.Support Pnet.Engine Pnet.Lib.Extension

variable {native : NativeInt} {t s : ILMachineType} {v : ILEvalValue} {value : StackValue native}
variable {lib : SystemDecimal} {info : ILGenInfo} (hlib : lib.Documented) {d : ILDecimal}

theorem integerPart_nonneg (hd : d.isNeg = false) : 0 ≤ integerPart d := by
  rw [integerPart_eq, hd]
  exact Int.natCast_nonneg _

/-- The long integer that a decimal is cut down to, where the test of the least one is wide. -/
theorem toInt_ofInt_part (hlow : -2 ^ 63 - 2 ^ 32 < integerPart d) (hhigh : integerPart d < 2 ^ 63) :
    (BitVec.ofInt 64 (integerPart d)).toInt =
      if -2 ^ 63 ≤ integerPart d then integerPart d else integerPart d + 2 ^ 64 := by
  split
  case isTrue hfits => exact BitVec.toInt_ofInt_eq_self (by decide) hfits hhigh
  case isFalse hout =>
    have hwrap : BitVec.ofInt 64 (integerPart d) = BitVec.ofInt 64 (integerPart d + 2 ^ 64) := by
      rw [BitVec.ofInt_add]
      simp
    rw [hwrap]
    exact BitVec.toInt_ofInt_eq_self (by decide) (by omega) (by omega)

theorem decimalToInt32_eq (d : ILDecimal) {minValue maxValue : Int}
    (hmin : -2147483648 ≤ minValue) (hmax : maxValue ≤ 2147483647) :
    decimalToInt32 d minValue maxValue =
      if InRange (minValue, maxValue) (integerPart d) then some (BitVec.ofInt 32 (integerPart d))
      else none := by
  have hcond : InRange (minValue, maxValue) (integerPart d) ↔
      minValue ≤ integerPart d ∧ integerPart d ≤ maxValue := Iff.rfl
  rw [decimalToInt32, ilDecimalToInt64_truncate]
  by_cases hin : -2 ^ 63 - 2 ^ 32 < integerPart d ∧ integerPart d < 2 ^ 63
  · have hint := toInt_ofInt_part hin.1 hin.2
    have htest : (BitVec.ofInt 64 (integerPart d)).toInt < minValue ∨
        (BitVec.ofInt 64 (integerPart d)).toInt > maxValue ↔
          ¬InRange (minValue, maxValue) (integerPart d) := by
      rw [hint, hcond]
      split <;> omega
    rw [if_pos hin, Option.bind_some, setWidth_ofInt _ (by decide), if_congr htest rfl rfl, ite_not]
  · rw [if_neg hin, if_neg (by rw [hcond]; omega)]
    rfl

theorem decimalToUInt32_eq (d : ILDecimal) (maxValue : ILUInt32) :
    decimalToUInt32 d maxValue =
      if !d.isNeg ∧ integerPart d ≤ maxValue.toNat then some (BitVec.ofInt 32 (integerPart d))
      else none := by
  have hmax := maxValue.isLt
  rw [decimalToUInt32, ilDecimalToUInt64_truncate]
  by_cases hin : !d.isNeg ∧ integerPart d < 2 ^ 64
  · have hnonneg : 0 ≤ integerPart d := integerPart_nonneg (by simpa using hin.1)
    have htest : BitVec.ofInt 64 (integerPart d) > maxValue.setWidth 64 ↔
        ¬(!d.isNeg ∧ integerPart d ≤ maxValue.toNat) := by
      have hnat : (BitVec.ofInt 64 (integerPart d)).toNat = (integerPart d).toNat := by
        rw [BitVec.toNat_ofInt, Int.emod_eq_of_lt hnonneg (by exact_mod_cast hin.2)]
      rw [gt_iff_lt, BitVec.lt_def, hnat, BitVec.toNat_setWidth_of_le (by decide)]
      have hneg := hin.1
      simp only [hneg, true_and]
      omega
    rw [if_pos hin, Option.bind_some, setWidth_ofInt _ (by decide), if_congr htest rfl rfl, ite_not]
  · rw [if_neg hin, if_neg (fun h => hin ⟨h.1, by omega⟩)]
    rfl

/-- What a cast of a decimal constant to a type of at most 32 bits is. -/
theorem ilGenCastConst_decimal (info : ILGenInfo) (d : ILDecimal)
    (ht : t.isI4 && t ≠ .boolean) {v' : ILEvalValue}
    (hv' : ilGenCastConst info (.ofDecimal d) .decimal t = some v') :
    InRange t.range (integerPart d) ∧ v' = .ofI4 t (BitVec.ofInt 32 (integerPart d)) := by
  have signed : ∀ {minValue maxValue : Int}, -2147483648 ≤ minValue → maxValue ≤ 2147483647 →
      (decimalToInt32 d minValue maxValue).map (ILEvalValue.ofI4 t) = some v' →
        InRange (minValue, maxValue) (integerPart d) ∧
          v' = .ofI4 t (BitVec.ofInt 32 (integerPart d)) := fun hmin hmax h => by
    rw [decimalToInt32_eq d hmin hmax] at h
    split at h
    case isTrue hin => exact ⟨hin, (Option.some.inj h).symm⟩
    case isFalse => cases h
  have unsigned : ∀ {maxValue : ILUInt32},
      (decimalToUInt32 d maxValue).map (ILEvalValue.ofI4 t) = some v' →
        InRange (0, maxValue.toNat) (integerPart d) ∧
          v' = .ofI4 t (BitVec.ofInt 32 (integerPart d)) := fun h => by
    rw [decimalToUInt32_eq] at h
    split at h
    case isTrue hin =>
      exact ⟨⟨integerPart_nonneg (by simpa using hin.1), hin.2⟩, (Option.some.inj h).symm⟩
    case isFalse => cases h
  cases t <;> first | (cases ht; done) | skip
  case int8 | int16 | int32 | nativeInt => exact signed (by decide) (by decide) hv'
  case uint8 | uint16 | char | uint32 | nativeUInt => exact unsigned hv'

/-- What is emitted for a decimal: a call, or a call for a wider type and a conversion. -/
inductive DecimalCode (t : ILMachineType) : List ILOp → Prop
  | direct (ht : t.isNarrow) : DecimalCode t [.opExplicit t]
  | wider (s : ILMachineType) (hs : s = .int32 ∨ s = .int64)
      (hrange : s.range.1 ≤ t.range.1 ∧ t.range.2 ≤ s.range.2) :
      DecimalCode t [.opExplicit s, .convOvf t.convType]

theorem decimalCode_of_narrow (info : ILGenInfo) (ht : t.isNarrow || t = .nativeInt) :
    DecimalCode t (ilGenCast info .decimal t) := by
  cases t <;> first | (cases ht; done) | skip
  case int8 =>
    by_cases hcls : info.clsCompliant
    · rw [show ilGenCast info .decimal .int8 = [.opExplicit .int32, .convOvf .i1] from if_pos hcls]
      exact .wider .int32 (.inl rfl) (by decide)
    · rw [show ilGenCast info .decimal .int8 = [.opExplicit .int8] from if_neg hcls]
      exact .direct rfl
  case uint16 =>
    by_cases hcls : info.clsCompliant
    · rw [show ilGenCast info .decimal .uint16 = [.opExplicit .int32, .convOvf .u2]
        from if_pos hcls]
      exact .wider .int32 (.inl rfl) (by decide)
    · rw [show ilGenCast info .decimal .uint16 = [.opExplicit .uint16] from if_neg hcls]
      exact .direct rfl
  case uint32 =>
    by_cases hcls : info.clsCompliant
    · rw [show ilGenCast info .decimal .uint32 = [.opExplicit .int64, .convOvf .u4]
        from if_pos hcls]
      exact .wider .int64 (.inr rfl) (by decide)
    · rw [show ilGenCast info .decimal .uint32 = [.opExplicit .uint32] from if_neg hcls]
      exact .direct rfl
  case nativeInt => exact .wider .int64 (.inr rfl) (by decide)
  all_goals exact .direct rfl

include hlib in
theorem run_opExplicit (hin : InRange t.range (integerPart d)) (stack : Stack native) :
    run lib [.opExplicit t] (.decimal d :: stack) =
      .ok (t.returned (integerPart d) :: stack) := by
  simp [ILOp.exec, explicit, hlib.opExplicit, hin]

include hlib in
theorem run_cast_decimal {code : List ILOp} (hcode : DecimalCode t code)
    (hin : InRange t.range (integerPart d)) (hin' : InRange (t.convType.range native) (integerPart d))
    (stack : Stack native) :
    run lib code (.decimal d :: stack) = .ok (t.convType.wrap (integerPart d) :: stack) := by
  cases hcode with
  | direct ht =>
    rw [run_opExplicit hlib hin, wrap_narrow ht, word_of_inRange ht hin]
    cases t <;> first | rfl | cases ht
  | wider s hs hrange =>
    have hwide : InRange s.range (integerPart d) := ⟨hrange.1.trans hin.1, hin.2.trans hrange.2⟩
    have hread : (s.returned (integerPart d) : StackValue native).toInt = some (integerPart d) := by
      obtain ⟨hlow, hhigh⟩ := hwide
      rcases hs with rfl | rfl
      all_goals
        simp only [ILMachineType.range] at hlow hhigh
        exact congrArg some (BitVec.toInt_ofInt_eq_self (by decide) (by omega) (by omega))
    rw [show [ILOp.opExplicit s, .convOvf t.convType] = [.opExplicit s] ++ [.convOvf t.convType]
      from rfl, run_append, run_opExplicit hlib hwide, except_bind_ok]
    simp [ILOp.exec, ConvType.checked, hread, hin']

theorem valueType_ofDecimal (d : ILDecimal) : (ILEvalValue.ofDecimal d).valueType = .decimal := rfl

include hlib in
theorem castAgrees_decimal_narrow (ht : t.isNarrow) :
    CastAgrees lib info (.ofDecimal d) (.decimal d : StackValue native) t := by
  intro v' hv'
  have hi4 : t.isI4 && t ≠ .boolean := by cases t <;> first | rfl | cases ht
  obtain ⟨hin, rfl⟩ := ilGenCastConst_decimal info d hi4 hv'
  refine ⟨rfl, .int32 (BitVec.ofInt 32 (integerPart d)), ?_, fun stack => ?_⟩
  · have hfits := fits_word ht (integerPart d)
    rw [word_of_inRange ht hin] at hfits
    exact .word (isWord_of_isNarrow ht) hfits
  · have hcode := decimalCode_of_narrow info (t := t) (by rw [ht]; rfl)
    have hin' := hin
    rw [← range_convType ht] at hin'
    rw [valueType_ofDecimal, run_cast_decimal hlib hcode hin hin', wrap_narrow ht,
      word_of_inRange ht hin]

include hlib in
theorem castAgrees_decimal_nativeInt :
    CastAgrees lib info (.ofDecimal d) (.decimal d : StackValue native) .nativeInt := by
  intro v' hv'
  obtain ⟨hin, rfl⟩ := ilGenCastConst_decimal info d (t := .nativeInt) rfl hv'
  have hlow : -2147483648 ≤ integerPart d := hin.1
  have hhigh : integerPart d ≤ 2147483647 := hin.2
  have hin' : InRange (ConvType.i.range native) (integerPart d) :=
    (inRange_i hlow (by omega)).2 (.inr (by omega))
  refine ⟨rfl, .nativeInt (BitVec.ofInt native.bits (integerPart d)), ?_, fun stack => ?_⟩
  · exact (leaves_nativeInt_ofInt hlow (by omega)).2 (.inr (by omega))
  · exact run_cast_decimal hlib (decimalCode_of_narrow info rfl) hin hin' stack

include hlib in
/-- The constant cast accepts values below the least integer of 64 bits. -/
theorem castAgrees_decimal_int64 :
    CastAgrees lib info (.ofDecimal d) (.decimal d : StackValue native) .int64 ↔
      (-2 ^ 63 ≤ integerPart d ∨ integerPart d ≤ -2 ^ 63 - 2 ^ 32) := by
  have hconst : ilGenCastConst info (.ofDecimal d) .decimal .int64 =
    (ilDecimalToInt64 (ilDecimalTruncate d)).map (.ofI8 .int64) := rfl
  rw [ilDecimalToInt64_truncate] at hconst
  by_cases hwide : -2 ^ 63 - 2 ^ 32 < integerPart d ∧ integerPart d < 2 ^ 63
  · rw [if_pos hwide] at hconst
    by_cases hlow : -2 ^ 63 ≤ integerPart d
    · have hin : InRange ILMachineType.int64.range (integerPart d) := by
        change -9223372036854775808 ≤ integerPart d ∧ integerPart d ≤ 9223372036854775807
        omega
      have hrun := fun stack : Stack native => run_opExplicit hlib hin stack
      have hagrees := (castAgrees_iff hconst rfl hrun).2 (.int64 _)
      exact iff_of_true hagrees (.inl hlow)
    · have hout : ¬InRange ILMachineType.int64.range (integerPart d) := fun hin => hlow hin.1
      have hfault : run lib [.opExplicit .int64] [(.decimal d : StackValue native)] =
          .error .overflow := by
        simp [ILOp.exec, explicit, hlib.opExplicit, hout]
      have hnot := not_castAgrees_of_fault hconst hfault
      simp only [hnot, hlow, false_or, false_iff]
      omega
  · rw [if_neg hwide] at hconst
    simp only [castAgrees_of_none hconst, true_iff]
    omega

theorem toRat_eq_zero_iff (d : ILDecimal) : d.toRat = 0 ↔ ilDecimalIsZero d = true := by
  have hsign : ILDecimal.sign d.isNeg ≠ 0 := by cases d.isNeg <;> simp [ILDecimal.sign]
  rw [ilDecimalIsZero, ILDecimal.wordsZero_iff, ILDecimal.toRat, mul_eq_zero, div_eq_zero_iff]
  simp [hsign]

theorem toRat_decimalOfInt_zero : (decimalOfInt 0).toRat = 0 :=
  (toRat_eq_zero_iff _).2 (by decide)

include hlib in
/-- The emitted code tests for zero where the constant cast tests for what is not zero. -/
theorem not_castAgrees_decimal_boolean :
    ¬CastAgrees lib info (.ofDecimal d) (.decimal d : StackValue native) .boolean := by
  have hconst : ilGenCastConst info (.ofDecimal d) .decimal .boolean =
    some (.ofI4 .boolean (if !ilDecimalIsZero d then 1 else 0)) := rfl
  have hequal : lib.opEquality d (decimalOfInt 0) = ilDecimalIsZero d := by
    rw [Bool.eq_iff_iff, hlib.opEquality, toRat_decimalOfInt_zero, toRat_eq_zero_iff]
  have hrun : ∀ stack : Stack native, run lib (ilGenCast info .decimal .boolean)
      (.decimal d :: stack) = .ok (ofBool (ilDecimalIsZero d) :: stack) := fun stack => by
    have himplicit := hlib.opImplicit .int32 0 (by decide)
    rw [← hequal, ← himplicit]
    rfl
  rw [castAgrees_iff hconst rfl hrun]
  intro h
  cases hzero : ilDecimalIsZero d <;> rw [hzero] at h <;> cases h

/-- Where the decimal without `2 ^ 63` has the integer part that it has without it. -/
def SubtractionFits (lib : SystemDecimal) (d : ILDecimal) : Prop :=
  ∃ r, lib.opSubtraction d (decimalOfInt (2 ^ 63)) = some r ∧
    integerPart r = integerPart d - 2 ^ 63

include hlib in
theorem run_genTwoTo63 (stack : Stack native) :
    run lib genTwoTo63 stack = .ok (.decimal (decimalOfInt (2 ^ 63)) :: stack) := by
  simp only [genTwoTo63, run_append, run_ilGenInt32, except_bind_ok]
  have hctor : lib.ctor 0 0x80000000 0 (decide ((0 : ILInt32) ≠ 0)) (BitVec.setWidth 8 (0 : ILInt32)) =
      some (decimalOfInt (2 ^ 63)) := hlib.ctor 0 0x80000000 0 false
  rw [run_cons, ILOp.exec, construct, hctor]
  rfl

theorem run_uint64_add (x : BitVec 64) (stack : Stack native) :
    run lib (ilGenUInt64 0x8000000000000000 ++ [.bin .add]) (.int64 x :: stack) =
      .ok (.int64 (x + 0x8000000000000000) :: stack) := by
  rw [run_append, run_ilGenUInt64]
  rfl

include hlib in
/-- Without a conversion from decimal to `uint64`: the way through `int64`. -/
theorem run_decimal_cls (hcls : info.clsCompliant) (stack : Stack native) :
    run lib (genToUInt64 info .decimal) (.decimal d :: stack) =
      (orOverflow ((lib.opSubtraction d (decimalOfInt (2 ^ 63))).bind (lib.opExplicit .int64))).map
        fun m => .int64 (BitVec.ofInt 64 (m + 2 ^ 63)) :: stack := by
  have hadd : ∀ m : Int, BitVec.ofInt 64 m + 0x8000000000000000 = BitVec.ofInt 64 (m + 2 ^ 63) :=
    fun m => by rw [BitVec.ofInt_add]; rfl
  rw [genToUInt64, if_pos hcls, List.append_assoc, List.append_assoc, run_append,
    run_genTwoTo63 hlib, except_bind_ok, run_append]
  cases hsub : lib.opSubtraction d (decimalOfInt (2 ^ 63)) with
  | none =>
    simp only [run_cons, ILOp.exec, binary_cons, decimals, hsub, orOverflow_none,
      except_map_error, except_bind_error, Option.bind_none]
  | some r =>
    cases hexplicit : lib.opExplicit .int64 r with
    | none =>
      simp only [run_cons, ILOp.exec, binary_cons, decimals, hsub, orOverflow_some, except_map_ok,
        except_bind_ok, push_eq, unary_cons, explicit, hexplicit, orOverflow_none,
        except_map_error, except_bind_error, Option.bind_some]
    | some m =>
      simp only [run_cons, ILOp.exec, binary_cons, decimals, hsub, orOverflow_some, except_map_ok,
        except_bind_ok, push_eq, unary_cons, explicit, hexplicit, run_nil, Option.bind_some,
        ILMachineType.returned, run_uint64_add, hadd]

section Fits

variable (hcls : info.clsCompliant)
include hlib hcls

theorem run_decimal_fits (hd : d.isNeg = false) (hlt : integerPart d < 2 ^ 64) (hfits : SubtractionFits lib d) (stack : Stack native) :
    run lib (genToUInt64 info .decimal) (.decimal d :: stack) =
      .ok (.int64 (BitVec.ofInt 64 (integerPart d)) :: stack) := by
  obtain ⟨r, hsub, hpart⟩ := hfits
  have hnonneg := integerPart_nonneg hd
  have hin : InRange ILMachineType.int64.range (integerPart r) := by
    change -9223372036854775808 ≤ integerPart r ∧ integerPart r ≤ 9223372036854775807
    omega
  have hsum : integerPart d - 2 ^ 63 + 2 ^ 63 = integerPart d := by omega
  rw [run_decimal_cls hlib hcls, hsub, Option.bind_some, hlib.opExplicit, if_pos hin,
    orOverflow_some, except_map_ok, hpart, hsum]

/-- Otherwise the way leads to another integer, or to none. -/
theorem run_decimal_unfit (hfits : ¬SubtractionFits lib d) :
    (∀ stack : Stack native,
        run lib (genToUInt64 info .decimal) (.decimal d :: stack) = .error .overflow) ∨
      ∃ m, 0 ≤ m ∧ m < 2 ^ 64 ∧ m ≠ integerPart d ∧ ∀ stack : Stack native,
        run lib (genToUInt64 info .decimal) (.decimal d :: stack) =
          .ok (.int64 (BitVec.ofInt 64 m) :: stack) := by
  simp only [run_decimal_cls hlib hcls]
  cases hsub : lib.opSubtraction d (decimalOfInt (2 ^ 63)) with
  | none => exact .inl fun stack => rfl
  | some r =>
    rw [Option.bind_some, hlib.opExplicit]
    by_cases hin : InRange ILMachineType.int64.range (integerPart r)
    · have hlow : -9223372036854775808 ≤ integerPart r := hin.1
      have hhigh : integerPart r ≤ 9223372036854775807 := hin.2
      refine .inr ⟨integerPart r + 2 ^ 63, by omega, by omega, fun heq => ?_, fun stack => ?_⟩
      · exact hfits ⟨r, hsub, by omega⟩
      · rw [if_pos hin]
        rfl
    · rw [if_neg hin]
      exact .inl fun stack => rfl

end Fits

theorem ofInt_inj {w : Nat} {m n : Int} (hm : 0 ≤ m) (hm' : m < 2 ^ w) (hn : 0 ≤ n)
    (hn' : n < 2 ^ w) : BitVec.ofInt w m = BitVec.ofInt w n ↔ m = n := by
  refine ⟨fun heq => ?_, fun heq => heq ▸ rfl⟩
  have hnat := congrArg BitVec.toNat heq
  rw [BitVec.toNat_ofInt, BitVec.toNat_ofInt, Int.emod_eq_of_lt hm (by exact_mod_cast hm'),
    Int.emod_eq_of_lt hn (by exact_mod_cast hn')] at hnat
  omega

include hlib in
theorem castAgrees_decimal_uint64 :
    CastAgrees lib info (.ofDecimal d) (.decimal d : StackValue native) .uint64 ↔
      (info.clsCompliant → d.isNeg = false → integerPart d < 2 ^ 64 → SubtractionFits lib d) := by
  have hconst : ilGenCastConst info (.ofDecimal d) .decimal .uint64 =
    (ilDecimalToUInt64 (ilDecimalTruncate d)).map (.ofI8 .uint64) := rfl
  rw [ilDecimalToUInt64_truncate] at hconst
  by_cases hin : !d.isNeg ∧ integerPart d < 2 ^ 64
  · have hd : d.isNeg = false := by simpa using hin.1
    have hnonneg := integerPart_nonneg hd
    rw [if_pos hin] at hconst
    by_cases hcls : info.clsCompliant
    · by_cases hfits : SubtractionFits lib d
      · have hrun := fun stack : Stack native => run_decimal_fits hlib hcls hd hin.2 hfits stack
        exact iff_of_true ((castAgrees_iff hconst rfl hrun).2 (.uint64 _)) fun _ _ _ => hfits
      · refine iff_of_false ?_ fun h => hfits (h hcls hd hin.2)
        rcases @run_decimal_unfit native _ _ hlib _ hcls hfits with hfault | hother
        · exact not_castAgrees_of_fault hconst (hfault [])
        · obtain ⟨m, hm, hm', hne, hrun⟩ := hother
          rw [castAgrees_iff hconst rfl hrun, leaves_long_iff rfl,
            ofInt_inj hnonneg hin.2 hm hm']
          exact hne.symm
    · have hrange : InRange ILMachineType.uint64.range (integerPart d) := by
        change 0 ≤ integerPart d ∧ integerPart d ≤ 18446744073709551615
        omega
      have hrun : ∀ stack : Stack native, run lib (ilGenCast info .decimal .uint64)
          (.decimal d :: stack) = .ok (.int64 (BitVec.ofInt 64 (integerPart d)) :: stack) := by
        intro stack
        rw [show ilGenCast info .decimal .uint64 = [.opExplicit .uint64] from if_neg hcls]
        exact run_opExplicit hlib hrange stack
      exact iff_of_true ((castAgrees_iff hconst rfl hrun).2 (.uint64 _)) fun h => absurd h hcls
  · rw [if_neg hin] at hconst
    refine iff_of_true (castAgrees_of_none hconst) fun _ hd hlt => absurd ⟨?_, hlt⟩ hin
    rw [hd]
    rfl

theorem run_convOvfUn_u {m : Int} (hm : 0 ≤ m) (hm' : m < 2 ^ 64) (stack : Stack native) :
    run lib [.convOvfUn .u] (.int64 (BitVec.ofInt 64 m) :: stack) =
      if InRange (ConvType.u.range native) m then
        .ok (.nativeInt (BitVec.ofInt native.bits m) :: stack)
      else .error .overflow := by
  have hnat : ((BitVec.ofInt 64 m).toNat : Int) = m := by
    rw [BitVec.toNat_ofInt, Int.emod_eq_of_lt hm (by exact_mod_cast hm')]
    exact Int.toNat_of_nonneg hm
  by_cases hin : InRange (ConvType.u.range native) m <;>
    simp only [run_cons, ILOp.exec, unary_cons, StackValue.toNat, Option.map_some, hnat,
      ConvType.checked, hin, if_true, if_false, ConvType.wrap, except_bind_ok, push_eq, run_nil,
      except_bind_error]

include hlib in
theorem castAgrees_decimal_nativeUInt :
    CastAgrees lib info (.ofDecimal d) (.decimal d : StackValue native) .nativeUInt ↔
      (info.clsCompliant → d.isNeg = false → integerPart d < 2 ^ 32 → SubtractionFits lib d) := by
  have hconst : ilGenCastConst info (.ofDecimal d) .decimal .nativeUInt =
    (decimalToUInt32 d 0xFFFFFFFF).map (.ofI4 .nativeUInt) := rfl
  have hcode : ilGenCast info .decimal .nativeUInt =
    genToUInt64 info .decimal ++ [.convOvfUn .u] := rfl
  rw [decimalToUInt32_eq] at hconst
  by_cases hin : !d.isNeg ∧ integerPart d ≤ ((0xFFFFFFFF : ILUInt32).toNat : Int)
  · have hd : d.isNeg = false := by simpa using hin.1
    have hnonneg := integerPart_nonneg hd
    have hlt : integerPart d ≤ 4294967295 := hin.2
    have hrange : InRange (ConvType.u.range native) (integerPart d) :=
      (inRange_u (by omega) hlt).2 hnonneg
    have hleaves : Leaves (.ofI4 .nativeUInt (BitVec.ofInt 32 (integerPart d)))
        (.nativeInt (BitVec.ofInt native.bits (integerPart d)) : StackValue native) :=
      (leaves_nativeUInt_ofInt (by omega) hlt).2 (.inr hnonneg)
    have agrees : (∀ stack : Stack native, run lib (genToUInt64 info .decimal)
        (.decimal d :: stack) = .ok (.int64 (BitVec.ofInt 64 (integerPart d)) :: stack)) →
        CastAgrees lib info (.ofDecimal d) (.decimal d : StackValue native) .nativeUInt := by
      intro hfirst
      rw [if_pos hin] at hconst
      refine (castAgrees_iff hconst rfl fun stack => ?_).2 hleaves
      rw [valueType_ofDecimal, hcode, run_append, hfirst, except_bind_ok,
        run_convOvfUn_u hnonneg (by omega), if_pos hrange]
    rw [if_pos hin] at hconst
    by_cases hcls : info.clsCompliant
    · by_cases hfits : SubtractionFits lib d
      · have hrun := fun stack : Stack native =>
          run_decimal_fits hlib hcls hd (by omega) hfits stack
        exact iff_of_true (agrees hrun) fun _ _ _ => hfits
      · refine iff_of_false ?_ fun h => hfits (h hcls hd (by omega))
        rcases @run_decimal_unfit native _ _ hlib _ hcls hfits with hfault | hother
        · refine not_castAgrees_of_fault hconst (?_ : _ = Except.error Fault.overflow)
          rw [valueType_ofDecimal, hcode, run_append, hfault, except_bind_error]
        · obtain ⟨m, hm, hm', hne, hrun⟩ := hother
          by_cases hrange' : InRange (ConvType.u.range native) m
          · have hrun' : ∀ stack : Stack native, run lib (ilGenCast info .decimal .nativeUInt)
                (.decimal d :: stack) =
                  .ok (.nativeInt (BitVec.ofInt native.bits m) :: stack) := fun stack => by
              rw [hcode, run_append, hrun, except_bind_ok, run_convOvfUn_u hm hm', if_pos hrange']
            have hbits : (2 : Int) ^ 32 ≤ 2 ^ native.bits := by cases native <;> decide
            have hmax : m ≤ 2 ^ native.bits - 1 := hrange'.2
            rw [castAgrees_iff hconst rfl hrun', leaves_nativeUInt_iff,
              setWidth_ofInt_of_lt hnonneg (by omega),
              ofInt_inj hnonneg (by omega) hm (by omega)]
            exact hne.symm
          · refine not_castAgrees_of_fault hconst (?_ : _ = Except.error Fault.overflow)
            rw [valueType_ofDecimal, hcode, run_append, hrun, except_bind_ok,
              run_convOvfUn_u hm hm', if_neg hrange']
    · refine iff_of_true (agrees fun stack => ?_) fun h => absurd h hcls
      have hrange' : InRange ILMachineType.uint64.range (integerPart d) := by
        change 0 ≤ integerPart d ∧ integerPart d ≤ 18446744073709551615
        omega
      rw [genToUInt64, if_neg hcls]
      exact run_opExplicit hlib hrange' stack
  · rw [if_neg hin] at hconst
    refine iff_of_true (castAgrees_of_none hconst) fun _ hd hlt => absurd ⟨?_, ?_⟩ hin
    · rw [hd]
      rfl
    · change integerPart d ≤ 4294967295
      omega

end Pnet.Codegen
