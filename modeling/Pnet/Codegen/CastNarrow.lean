import Pnet.Codegen.ConvSound

/-! Casts to the types of at most 32 bits. -/
namespace Pnet.Codegen
open Pnet.Engine Pnet.Lib.Extension

variable {native : NativeInt} {t s : ILMachineType} {v : ILEvalValue} {value : StackValue native}

/-- A word of a type holds a number of its range. -/
theorem inRange_num {x : ILInt32} (hs : s.isWord) (hx : s.Fits x) :
    InRange s.range (ILEvalValue.ofI4 s x).num := by
  have hlow := x.le_toInt
  have hhigh := x.toInt_lt
  have hlt := x.isLt
  rw [InRange]
  cases s <;> simp only [ILMachineType.isWord, Bool.false_eq_true] at hs <;>
    simp only [ILMachineType.Fits] at hx <;>
    simp only [ILMachineType.range, ILEvalValue.num, ILEvalValue.ofI4, ILEvalValue.i4Value]
  case boolean => rcases hx with rfl | rfl <;> simp
  case int8 =>
    have hfits := (signExtend_fits_iff x (by decide) (by decide)).1 hx
    omega
  case int16 =>
    have hfits := (signExtend_fits_iff x (by decide) (by decide)).1 hx
    omega
  case uint8 =>
    have hfits := (setWidth_fits_iff x (by decide)).1 hx
    omega
  case uint16 | char =>
    have hfits := (setWidth_fits_iff x (by decide)).1 hx
    omega
  case int32 | uint32 => omega

/-- The number of a word is read from the stack with or without a sign. -/
theorem ofInt_num {x : ILInt32} (hs : s.isWord) :
    BitVec.ofInt 32 (ILEvalValue.ofI4 s x).num = x := by
  cases s <;> simp only [ILMachineType.isWord, Bool.false_eq_true] at hs <;>
    simp [ILEvalValue.num, ILEvalValue.ofI4, ILEvalValue.i4Value]

/-- A word that holds a number of another type needs no conversion. -/
theorem run_retype (lib : SystemDecimal) (info : ILGenInfo) {x : ILInt32} (hs : s.isWord)
    (ht : t.isNarrow) (hin : InRange t.range (ILEvalValue.ofI4 s x).num) (stack : Stack native) :
    run lib [] (.int32 x :: stack) =
      converted info t.convType (ILEvalValue.ofI4 s x).num stack := by
  apply run_nothing lib info
  · rwa [range_convType ht]
  · rw [wrap_narrow ht, word_of_inRange ht hin, ofInt_num hs]

theorem Leaves.conv_narrow (h : Leaves v value) (hint : v.valueType ≠ .decimal)
    (ht : t.isNarrow) : t.convType.conv value = some (t.convType.wrap v.num) := by
  rw [Codegen.conv_narrow ht]
  cases h with
  | @word s hs x hx =>
    rw [StackValue.toInt, Option.map_some, wrap_narrow ht, wrap_narrow ht, word_toInt x le_rfl,
      ILMachineType.word, ofInt_num hs]
  | int64 x => rfl
  | uint64 x =>
    rw [StackValue.toInt, Option.map_some, wrap_narrow ht, wrap_narrow ht,
      word_toInt x (by decide)]
    exact congrArg (fun y => some (StackValue.int32 y)) (word_toNat x).symm
  | nativeInt x =>
    rw [StackValue.toInt, Option.map_some, BitVec.toInt_signExtend_of_le (le_bits native)]
    rfl
  | nativeUInt x =>
    rw [StackValue.toInt, Option.map_some, wrap_narrow ht, wrap_narrow ht,
      word_toInt _ (le_bits native), ← castWord_setWidth, BitVec.setWidth_setWidth_of_le]
    · exact congrArg (fun y => some (StackValue.int32 y)) (word_toNat x).symm
    · exact le_bits native
  | decimal d => exact absurd rfl hint

/-- The types whose numbers have a sign. -/
def ILMachineType.isSigned : ILMachineType → Bool
  | .int8 | .int16 | .int32 | .int64 | .nativeInt => true
  | _ => false

/-- The types of words whose numbers all lie in another type. -/
def ILMachineType.liesIn (s t : ILMachineType) : Bool :=
  s.isWord && t.range.1 ≤ s.range.1 && s.range.2 ≤ t.range.2

/-- What is emitted for a narrow type. -/
inductive NarrowCode (info : ILGenInfo) (s t : ILMachineType) : List ILOp → Prop
  | nothing (h : s.liesIn t) : NarrowCode info s t []
  | convSigned (h : s.isSigned) : NarrowCode info s t (convSigned info t.convType)
  | convUnsigned (h : !s.isSigned) : NarrowCode info s t (convUnsigned info t.convType)
  | checkSigned (h : s.isSigned && s.isWord) (ht : t = .uint32) :
      NarrowCode info s t (checkSigned info t.convType)
  | checkUnsigned (hs : s = .uint32) (ht : t = .int32) :
      NarrowCode info s t (checkUnsigned info t.convType)

theorem narrowCode_of_narrow (info : ILGenInfo) (hs : s ≠ .decimal) (ht : t.isNarrow) :
    NarrowCode info s t (ilGenCast info s t) := by
  cases t <;> first | (cases ht; done) | skip
  all_goals cases s <;> first
    | exact absurd rfl hs
    | exact .nothing rfl
    | exact .convSigned rfl
    | exact .convUnsigned rfl
    | exact .checkSigned rfl rfl
    | exact .checkUnsigned rfl rfl

theorem Leaves.toInt (h : Leaves v value) (hsigned : v.valueType.isSigned) :
    value.toInt = some v.num := by
  cases h with
  | @word s hs x hx =>
    cases s <;> first | rfl | (cases hsigned; done) | cases hs
  | nativeInt x =>
    rw [StackValue.toInt, BitVec.toInt_signExtend_of_le (le_bits native)]
    rfl
  | int64 x => rfl
  | uint64 x | nativeUInt x | decimal x => cases hsigned

theorem Leaves.toNat (h : Leaves v value) (hint : v.valueType ≠ .decimal)
    (hunsigned : !v.valueType.isSigned) :
    ∃ n : Nat, value.toNat = some n ∧ v.num = n := by
  cases h with
  | @word s hs x hx =>
    refine ⟨x.toNat, rfl, ?_⟩
    cases s <;> first | rfl | (cases hunsigned; done) | cases hs
  | nativeUInt x =>
    refine ⟨x.toNat, ?_, rfl⟩
    rw [StackValue.toNat, BitVec.toNat_setWidth_of_le (le_bits native)]
  | uint64 x => exact ⟨x.toNat, rfl, rfl⟩
  | int64 x | nativeInt x => cases hunsigned
  | decimal x => exact absurd rfl hint

/-- A type of words has its constants in a word. -/
theorem Leaves.word_cases (h : Leaves v value) (hs : v.valueType.isWord) :
    ∃ x : ILInt32, v.valueType.Fits x ∧ v = .ofI4 v.valueType x ∧ value = .int32 x := by
  cases h with
  | @word s hs x hx => exact ⟨x, hx, rfl, rfl⟩
  | int64 x | uint64 x | nativeInt x | nativeUInt x | decimal x => cases hs

theorem Leaves.nativeInt_cases (h : Leaves v value) (hs : v.valueType = .nativeInt) :
    ∃ x : ILInt32, v = .ofI4 .nativeInt x ∧ value = .nativeInt (x.signExtend native.bits) := by
  cases h with
  | nativeInt x => exact ⟨x, rfl, rfl⟩
  | @word s ht x hx => cases s <;> first | (cases hs; done) | cases ht
  | int64 x | uint64 x | nativeUInt x | decimal d => cases hs

theorem Leaves.nativeUInt_cases (h : Leaves v value) (hs : v.valueType = .nativeUInt) :
    ∃ x : ILUInt32, v = .ofI4 .nativeUInt x ∧ value = .nativeInt (x.setWidth native.bits) := by
  cases h with
  | nativeUInt x => exact ⟨x, rfl, rfl⟩
  | @word s ht x hx => cases s <;> first | (cases hs; done) | cases ht
  | int64 x | uint64 x | nativeInt x | decimal d => cases hs

/-- The conversions to a narrow type keep the number, or find that it is out of range. -/
theorem run_cast_narrow (lib : SystemDecimal) (info : ILGenInfo) (h : Leaves v value)
    (hint : v.valueType ≠ .decimal) (ht : t.isNarrow) (stack : Stack native) :
    run lib (ilGenCast info v.valueType t) (value :: stack) =
      converted info t.convType v.num stack := by
  have hconv := h.conv_narrow hint ht
  have hcode := narrowCode_of_narrow info hint ht
  generalize ilGenCast info v.valueType t = code at hcode ⊢
  cases hcode with
  | nothing hlies =>
    rw [ILMachineType.liesIn, Bool.and_eq_true, Bool.and_eq_true, decide_eq_true_eq,
      decide_eq_true_eq] at hlies
    obtain ⟨x, hx, hv, rfl⟩ := h.word_cases hlies.1.1
    have hin := inRange_num hlies.1.1 hx
    rw [hv]
    exact run_retype lib info hlies.1.1 ht ⟨hlies.1.2.trans hin.1, hin.2.trans hlies.2⟩ stack
  | convSigned hsigned => exact run_convSigned lib info (h.toInt hsigned) (fun _ => hconv) stack
  | convUnsigned hunsigned =>
    obtain ⟨n, hn, hnum⟩ := h.toNat hint hunsigned
    rw [hnum] at hconv ⊢
    exact run_convUnsigned lib info hn hconv stack
  | checkSigned hsigned htype =>
    rw [Bool.and_eq_true] at hsigned
    obtain ⟨x, hx, hv, rfl⟩ := h.word_cases hsigned.2
    apply run_checkSigned lib info (h.toInt hsigned.1)
    rw [htype, hv]
    exact congrArg StackValue.int32 (ofInt_num hsigned.2).symm
  | checkUnsigned hs htype =>
    obtain ⟨x, hx, hv, rfl⟩ := h.word_cases (hs ▸ rfl)
    rw [hs] at hv
    subst hv htype
    exact run_checkUnsigned lib info rfl (congrArg StackValue.int32 (ofInt_toNat x 32).symm) stack

/-! ### Constants -/

/-- The types whose constants lie in `i4Value`. -/
def ILMachineType.isI4 : ILMachineType → Bool
  | .int64 | .uint64 | .decimal => false
  | _ => true

/-- What a cast of a constant to a narrow type does. -/
inductive NarrowConst (info : ILGenInfo) (v : ILEvalValue) (s t : ILMachineType) :
    Option ILEvalValue → Prop
  | same (h : s = t) : NarrowConst info v s t (some v)
  | retype (h : s.liesIn t) : NarrowConst info v s t (some (v.retype t))
  | retypeNative (h : s = .nativeInt ∧ t = .int32 ∨ s = .nativeUInt ∧ t = .uint32) :
      NarrowConst info v s t (some (v.retype t))
  | castSigned (h : s.isSigned && s.isI4) :
      NarrowConst info v s t (castSigned info v t t.range.1 t.range.2)
  | castUnsigned (h : !s.isSigned && s.isI4) :
      NarrowConst info v s t (castUnsigned info v t t.range.2)
  | castInt64 (h : s = .int64) : NarrowConst info v s t (castInt64 info v t t.range.1 t.range.2)
  | castUInt64 (h : s = .uint64) : NarrowConst info v s t (castUInt64 info v t t.range.2)
  | checkSigned (h : s.isSigned && s.isI4) (ht : t = .uint32) :
      NarrowConst info v s t
        (if info.overflowInsns ∧ v.i4Value.toInt < 0 then none else some (v.retype t))
  | checkUnsigned (h : !s.isSigned && s.isI4) (ht : t = .int32) :
      NarrowConst info v s t
        (if info.overflowInsns ∧ v.i4Value > 0x7FFFFFFF then none else some (v.retype t))

/-- The casts that record `int8` for `int16`. -/
def Misrecorded (s t : ILMachineType) : Prop :=
  t = .int16 ∧ (s = .boolean ∨ s = .int8 ∨ s = .uint8)

instance (s t : ILMachineType) : Decidable (Misrecorded s t) :=
  inferInstanceAs (Decidable (_ ∧ _))

theorem narrowConst_of_narrow (info : ILGenInfo) (v : ILEvalValue) (hs : s ≠ .decimal)
    (ht : t.isNarrow) (hrecorded : ¬Misrecorded s t) :
    NarrowConst info v s t (ilGenCastConst info v s t) := by
  cases t <;> first | (cases ht; done) | skip
  all_goals cases s <;> first
    | exact absurd rfl hs
    | exact .same rfl
    | exact .castSigned rfl
    | exact .castUnsigned rfl
    | exact .castInt64 rfl
    | exact .castUInt64 rfl
    | exact .checkSigned rfl rfl
    | exact .checkUnsigned rfl rfl
    | exact .retypeNative (by decide)
    | exact .retype rfl
    | exact absurd (by decide) hrecorded

theorem num_signed (hs : v.valueType.isSigned && v.valueType.isI4) :
    v.num = v.i4Value.toInt := by
  obtain ⟨s, un⟩ := v
  cases s <;> first | rfl | cases hs

theorem num_unsigned (hs : !v.valueType.isSigned && v.valueType.isI4) :
    v.num = v.i4Value.toNat := by
  obtain ⟨s, un⟩ := v
  cases s <;> first | rfl | cases hs

theorem ofInt_num_i4 (hs : v.valueType.isI4) : BitVec.ofInt 32 v.num = v.i4Value := by
  by_cases hsigned : v.valueType.isSigned
  · rw [num_signed (by rw [hsigned, hs]; rfl), BitVec.ofInt_toInt]
  · rw [num_unsigned (by simp [hsigned, hs]), ofInt_toNat, BitVec.setWidth_eq]

theorem Leaves.retype_eq (h : Leaves v value) (hs : v.valueType.isI4) (t : ILMachineType) :
    v.retype t = .ofI4 t v.i4Value := by
  cases h with
  | word hs hx | nativeInt x | nativeUInt x => rfl
  | int64 x | uint64 x | decimal d => cases hs

/-- A constant cast to a narrow type, by its number. -/
def narrowed (info : ILGenInfo) (t : ILMachineType) (n : Int) : Option ILEvalValue :=
  if info.overflowInsns ∧ ¬InRange t.range n then none else some (.ofI4 t (t.word n))

theorem narrowed_of_inRange (info : ILGenInfo) (h : Leaves v value) (hs : v.valueType.isI4)
    (ht : t.isNarrow) (hin : InRange t.range v.num) :
    some (v.retype t) = narrowed info t v.num := by
  rw [narrowed, if_neg (by simp [hin]), word_of_inRange ht hin, ofInt_num_i4 hs,
    h.retype_eq hs]

theorem isI4_of_isWord {s : ILMachineType} (hs : s.isWord) : s.isI4 := by
  cases s <;> first | rfl | cases hs

theorem Leaves.inRange_num (h : Leaves v value) (hs : v.valueType.isI4) :
    InRange v.valueType.range v.num := by
  cases h with
  | word ht hx => exact Codegen.inRange_num ht hx
  | nativeInt x =>
    have hlow := x.le_toInt
    have hhigh := x.toInt_lt
    change -2147483648 ≤ x.toInt ∧ x.toInt ≤ 2147483647
    omega
  | nativeUInt x =>
    have hlt := x.isLt
    change (0 : Int) ≤ x.toNat ∧ (x.toNat : Int) ≤ 4294967295
    omega
  | int64 x | uint64 x | decimal d => cases hs

theorem not_inRange_iff {range : Int × Int} {n : Int} :
    ¬InRange range n ↔ n < range.1 ∨ n > range.2 := by
  rw [InRange, not_and_or, not_le, not_le]

theorem not_inRange_natCast (t : ILMachineType) (n : Nat) : ¬InRange t.range n ↔ n > t.range.2 := by
  have hlow : t.range.1 ≤ 0 := by cases t <;> decide
  rw [not_inRange_iff]
  omega

theorem ilGenCastConst_narrow (info : ILGenInfo) (h : Leaves v value)
    (hint : v.valueType ≠ .decimal) (ht : t.isNarrow) (hrecorded : ¬Misrecorded v.valueType t) :
    ilGenCastConst info v v.valueType t = narrowed info t v.num := by
  have hcast := narrowConst_of_narrow info v hint ht hrecorded
  generalize ilGenCastConst info v v.valueType t = result at hcast ⊢
  cases hcast with
  | same hsame =>
    subst hsame
    have hi4 := isI4_of_isWord (isWord_of_isNarrow ht)
    exact narrowed_of_inRange info h hi4 ht (h.inRange_num hi4)
  | retype hlies =>
    rw [ILMachineType.liesIn, Bool.and_eq_true, Bool.and_eq_true, decide_eq_true_eq,
      decide_eq_true_eq] at hlies
    have hi4 := isI4_of_isWord hlies.1.1
    have hin := h.inRange_num hi4
    exact narrowed_of_inRange info h hi4 ht ⟨hlies.1.2.trans hin.1, hin.2.trans hlies.2⟩
  | retypeNative htypes =>
    rcases htypes with ⟨hs, rfl⟩ | ⟨hs, rfl⟩
    all_goals
      have hi4 : v.valueType.isI4 := hs ▸ rfl
      have hin := h.inRange_num hi4
      rw [hs] at hin
      exact narrowed_of_inRange info h hi4 ht hin
  | castSigned hs =>
    simp only [castSigned, narrowed, num_signed hs, not_inRange_iff, word_toInt _ le_rfl]
  | castUnsigned hs =>
    simp only [castUnsigned, narrowed, num_unsigned hs, not_inRange_natCast, word_toNat]
  | castInt64 hs =>
    have hnum : v.num = v.i8Value.toInt := by rw [ILEvalValue.num, hs]
    simp only [castInt64, narrowed, hnum, not_inRange_iff,
      word_toInt v.i8Value (by decide : 32 ≤ 64)]
  | castUInt64 hs =>
    have hnum : v.num = v.i8Value.toNat := by rw [ILEvalValue.num, hs]
    simp only [castUInt64, narrowed, hnum, not_inRange_natCast, word_toNat]
  | checkSigned hs htype =>
    have hhigh := v.i4Value.toInt_lt
    rw [h.retype_eq (Bool.and_eq_true _ _ ▸ hs).2, narrowed, num_signed hs, htype,
      word_toInt _ le_rfl]
    have hin : ¬InRange ILMachineType.uint32.range v.i4Value.toInt ↔ v.i4Value.toInt < 0 := by
      rw [not_inRange_iff]
      change v.i4Value.toInt < 0 ∨ v.i4Value.toInt > 4294967295 ↔ _
      omega
    simp [hin, castWord]
  | checkUnsigned hs htype =>
    rw [h.retype_eq (Bool.and_eq_true _ _ ▸ hs).2, narrowed, num_unsigned hs, htype,
      word_toNat]
    have hin : ¬InRange ILMachineType.int32.range v.i4Value.toNat ↔
        2147483647#32 < v.i4Value := by
      rw [not_inRange_natCast, BitVec.lt_def]
      change (v.i4Value.toNat : Int) > 2147483647 ↔ 2147483647 < v.i4Value.toNat
      omega
    simp [hin, castWord]

/-- Casts to a narrow type agree, but for the type that is recorded. -/
theorem castAgrees_narrow {lib : SystemDecimal} {info : ILGenInfo} (h : Leaves v value)
    (hint : v.valueType ≠ .decimal) (ht : t.isNarrow) :
    CastAgrees lib info v value t ↔ ¬Misrecorded v.valueType t := by
  constructor
  · rintro hagrees ⟨rfl, hs⟩
    have hconst : ilGenCastConst info v v.valueType .int16 = some (v.retype .int8) := by
      rcases hs with hs | hs | hs <;> rw [hs] <;> rfl
    exact absurd (hagrees _ hconst).1 (by simp [ILEvalValue.retype])
  · intro hrecorded v' hv'
    rw [ilGenCastConst_narrow info h hint ht hrecorded, narrowed] at hv'
    split at hv'
    · cases hv'
    case isFalse hin =>
      cases hv'
      refine ⟨rfl, .int32 (t.word v.num), .word (isWord_of_isNarrow ht) (fits_word ht _), ?_⟩
      intro stack
      rw [run_cast_narrow lib info h hint ht, converted, range_convType ht, if_neg hin,
        wrap_narrow ht]

end Pnet.Codegen
