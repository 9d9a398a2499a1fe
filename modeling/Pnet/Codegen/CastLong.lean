import Pnet.Codegen.CastNarrow

/-! Casts of integers to the boolean type, and to the types of 64 bits. -/
namespace Pnet.Codegen
open Pnet.Engine Pnet.Lib.Extension

variable {native : NativeInt} {t s : ILMachineType} {v : ILEvalValue} {value : StackValue native}
variable {lib : SystemDecimal} {info : ILGenInfo}

/-! ### Boolean -/

theorem leaves_ofBool (b : Bool) :
    Leaves (.ofI4 .boolean (if b then 1 else 0)) (ofBool b : StackValue native) := by
  cases b
  · exact .word rfl (.inl rfl)
  · exact .word rfl (.inr rfl)

theorem run_not (lib : SystemDecimal) (b : Bool) (stack : Stack native) :
    run lib [.ldcI4N 1, .bin .xor] (ofBool b :: stack) = .ok (ofBool (!b) :: stack) := by
  cases b <;> rfl

theorem run_notZero {ops : Operands native} (lib : SystemDecimal)
    (hops : operands value (.int32 0) = some ops) (stack : Stack native) :
    run lib [.ldcI4N 0, .ceq, .ldcI4N 1, .bin .xor] (value :: stack) =
      .ok (ofBool (!ops.equal) :: stack) := by
  rw [← run_not lib]
  simp only [run_cons, ILOp.exec, push_eq, except_bind_ok, binary_cons]
  change (((orInvalid (operands value (.int32 0))).map _).bind _).bind _ = _
  rw [hops]
  rfl

theorem run_notZero64 (lib : SystemDecimal) (x : BitVec 64) (stack : Stack native) :
    run lib [.ldcI4N 0, .conv .i8, .ceq, .ldcI4N 1, .bin .xor] (.int64 x :: stack) =
      .ok (ofBool (x != 0) :: stack) :=
  run_not lib (x == 0) stack

theorem castAgrees_of_bool {b : Bool}
    (hconst : ilGenCastConst info v v.valueType .boolean =
      some (.ofI4 .boolean (if b then 1 else 0)))
    (hrun : ∀ stack, run lib (ilGenCast info v.valueType .boolean) (value :: stack) =
      .ok (ofBool b :: stack)) :
    CastAgrees lib info v value .boolean :=
  (castAgrees_iff hconst rfl hrun).2 (leaves_ofBool b)

/-- The extension of a word to the native size is zero if the word is. -/
theorem signExtend_bits_eq_zero (native : NativeInt) (x : ILInt32) :
    x.signExtend native.bits = (0 : BitVec 32).signExtend native.bits ↔ x = 0 := by
  refine ⟨fun h => ?_, fun h => h ▸ rfl⟩
  have hint := congrArg BitVec.toInt h
  rw [BitVec.toInt_signExtend_of_le (le_bits native),
    BitVec.toInt_signExtend_of_le (le_bits native)] at hint
  exact BitVec.eq_of_toInt_eq hint

theorem setWidth_bits_eq_zero (native : NativeInt) (x : ILUInt32) :
    x.setWidth native.bits = (0 : BitVec 32).signExtend native.bits ↔ x = 0 := by
  refine ⟨fun h => ?_, fun h => by rw [h]; cases native <;> rfl⟩
  have hnat := congrArg (BitVec.setWidth 32) h
  rw [BitVec.setWidth_setWidth_of_le _ (le_bits native), BitVec.setWidth_eq,
    setWidth_signExtend _ le_rfl (le_bits native)] at hnat
  exact hnat

theorem castAgrees_boolean (h : Leaves v value) (hint : v.valueType ≠ .decimal) :
    CastAgrees lib info v value .boolean := by
  cases h with
  | @word s hs x hx =>
    cases s <;> first | (cases hs; done) | skip
    case boolean =>
      have hconst : ilGenCastConst info (.ofI4 .boolean x) .boolean .boolean =
        some (.ofI4 .boolean x) := rfl
      exact (castAgrees_iff hconst rfl fun stack => rfl).2 (.word hs hx)
    all_goals
      have hops : operands (.int32 x : StackValue native) (.int32 0) = some (.int32 x 0) := rfl
      exact castAgrees_of_bool rfl (run_notZero lib hops)
  | int64 x | uint64 x => exact castAgrees_of_bool rfl (run_notZero64 lib x)
  | nativeInt x =>
    refine castAgrees_of_bool rfl fun stack => (run_notZero lib rfl stack).trans ?_
    simp only [Operands.equal, signExtend_bits_eq_zero]
    rfl
  | nativeUInt x =>
    refine castAgrees_of_bool rfl fun stack => (run_notZero lib rfl stack).trans ?_
    simp only [Operands.equal, setWidth_bits_eq_zero]
    rfl
  | decimal d => exact absurd rfl hint

/-! ### 64 bits -/

/-- A constant cast to 64 bits, by its number. -/
def lengthened (info : ILGenInfo) (t : ILMachineType) (n : Int) : Option ILEvalValue :=
  if info.overflowInsns ∧ ¬InRange t.range n then none else some (.ofI8 t (BitVec.ofInt 64 n))

/-- The types of 64 bits. -/
def ILMachineType.isLong (t : ILMachineType) : Bool := t = .int64 || t = .uint64

/-- What a cast of a constant to 64 bits does. -/
inductive LongConst (info : ILGenInfo) (v : ILEvalValue) (s t : ILMachineType) :
    Option ILEvalValue → Prop
  | same (h : s = t) : LongConst info v s t (some v)
  | signed (h : s.isI4 && (s.isSigned || s = .boolean)) (ht : t = .int64) :
      LongConst info v s t (some (.ofI8 t (v.i4Value.signExtend 64)))
  | checked (h : s.isI4 && (s.isSigned || s = .boolean)) (ht : t = .uint64) :
      LongConst info v s t (if info.overflowInsns ∧ v.i4Value.toInt < 0 then none
        else some (.ofI8 t (v.i4Value.signExtend 64)))
  | unsigned (h : s.isI4 && !s.isSigned) :
      LongConst info v s t (some (.ofI8 t (v.i4Value.setWidth 64)))
  | toInt64 (h : s = .uint64) (ht : t = .int64) : LongConst info v s t
      (if info.overflowInsns ∧ v.i8Value > 0x7FFFFFFFFFFFFFFF then none else some (v.retype t))
  | toUInt64 (h : s = .int64) (ht : t = .uint64) : LongConst info v s t
      (if info.overflowInsns ∧ v.i8Value.toInt < 0 then none else some (v.retype t))

theorem longConst_of_long (info : ILGenInfo) (v : ILEvalValue) (hs : s ≠ .decimal)
    (ht : t.isLong) : LongConst info v s t (ilGenCastConst info v s t) := by
  cases t <;> first | (cases ht; done) | skip
  all_goals cases s <;> first
    | exact absurd rfl hs
    | exact .same rfl
    | exact .signed rfl rfl
    | exact .checked rfl rfl
    | exact .unsigned rfl
    | exact .toInt64 rfl rfl
    | exact .toUInt64 rfl rfl

/-- A boolean has no sign bit. -/
theorem toInt_eq_num (h : Leaves v value)
    (hs : v.valueType.isI4 && (v.valueType.isSigned || v.valueType = .boolean)) :
    v.i4Value.toInt = v.num := by
  rw [Bool.and_eq_true, Bool.or_eq_true, decide_eq_true_eq] at hs
  rcases hs with ⟨hi4, hsigned | hbool⟩
  · exact (num_signed (by rw [hi4, hsigned]; rfl)).symm
  · obtain ⟨x, hx, hv, -⟩ := h.word_cases (hbool ▸ rfl)
    rw [hbool] at hx hv
    subst hv
    rcases hx with rfl | rfl <;> rfl

theorem num_bounds (h : Leaves v value) (hs : v.valueType.isI4) :
    -2147483648 ≤ v.num ∧ v.num ≤ 4294967295 := by
  have hin := h.inRange_num hs
  generalize v.valueType = s at hs hin
  have hrange : -2147483648 ≤ s.range.1 ∧ s.range.2 ≤ 4294967295 := by
    cases s <;> first | decide | cases hs
  exact ⟨hrange.1.trans hin.1, hin.2.trans hrange.2⟩

theorem inRange_int64 (h : Leaves v value) (hs : v.valueType.isI4) :
    InRange ILMachineType.int64.range v.num := by
  have hbounds := num_bounds h hs
  change -9223372036854775808 ≤ v.num ∧ v.num ≤ 9223372036854775807
  omega

theorem inRange_uint64 (h : Leaves v value) (hs : v.valueType.isI4) :
    InRange ILMachineType.uint64.range v.num ↔ 0 ≤ v.num := by
  have hbounds := num_bounds h hs
  change 0 ≤ v.num ∧ v.num ≤ 18446744073709551615 ↔ _
  omega

theorem Leaves.long_cases (h : Leaves v value) (hs : v.valueType.isLong) :
    ∃ x : BitVec 64, v = .ofI8 v.valueType x ∧ value = .int64 x := by
  cases h with
  | int64 x | uint64 x => exact ⟨x, rfl, rfl⟩
  | @word s hs' x hx => cases s <;> first | (cases hs; done) | cases hs'
  | nativeInt x | nativeUInt x | decimal d => cases hs

/-- A long constant of its own type is in range. -/
theorem inRange_long (ht : t.isLong) (x : BitVec 64) :
    InRange t.range (ILEvalValue.ofI8 t x).num := by
  have hlow := x.le_toInt
  have hhigh := x.toInt_lt
  have hlt := x.isLt
  cases t <;> first | (cases ht; done) | skip
  case int64 =>
    change -9223372036854775808 ≤ x.toInt ∧ x.toInt ≤ 9223372036854775807
    omega
  case uint64 =>
    change (0 : Int) ≤ x.toNat ∧ (x.toNat : Int) ≤ 18446744073709551615
    omega

theorem ofInt_num_long (ht : t.isLong) (x : BitVec 64) :
    BitVec.ofInt 64 (ILEvalValue.ofI8 t x).num = x := by
  cases t <;> first | (cases ht; done) | skip
  case int64 => exact BitVec.ofInt_toInt
  case uint64 => exact (ofInt_toNat x 64).trans (BitVec.setWidth_eq x)

theorem ilGenCastConst_long (info : ILGenInfo) (h : Leaves v value)
    (hint : v.valueType ≠ .decimal) (ht : t.isLong) :
    ilGenCastConst info v v.valueType t = lengthened info t v.num := by
  have hcast := longConst_of_long info v hint ht
  generalize ilGenCastConst info v v.valueType t = result at hcast ⊢
  cases hcast with
  | same hsame =>
    obtain ⟨x, hv, -⟩ := h.long_cases (hsame ▸ ht)
    rw [hsame] at hv
    rw [hv, lengthened, if_neg (by simp [inRange_long ht]), ofInt_num_long ht]
  | signed hs htype =>
    have hi4 := (Bool.and_eq_true _ _ ▸ hs).1
    rw [lengthened, htype, if_neg (by simp [inRange_int64 h hi4]), ← toInt_eq_num h hs]
    rfl
  | checked hs htype =>
    have hi4 := (Bool.and_eq_true _ _ ▸ hs).1
    have hin : ¬InRange ILMachineType.uint64.range v.num ↔ v.i4Value.toInt < 0 := by
      rw [inRange_uint64 h hi4, toInt_eq_num h hs, not_le]
    simp only [lengthened, htype, hin]
    rw [← toInt_eq_num h hs]
    rfl
  | unsigned hs =>
    have hi4 := (Bool.and_eq_true _ _ ▸ hs).1
    have hnum := num_unsigned (by rw [Bool.and_comm]; exact hs)
    have hin : InRange t.range v.num := by
      cases t <;> first | (cases ht; done) | skip
      · exact inRange_int64 h hi4
      · exact (inRange_uint64 h hi4).2 (by rw [hnum]; exact Int.natCast_nonneg _)
    rw [lengthened, if_neg (by simp [hin]), hnum, ofInt_toNat]
  | toInt64 hs htype =>
    obtain ⟨x, hv, -⟩ := h.long_cases (hs ▸ rfl)
    rw [hs] at hv
    subst hv htype
    have hin : ¬InRange ILMachineType.int64.range (x.toNat : Int) ↔ x > 0x7FFFFFFFFFFFFFFF := by
      rw [not_inRange_natCast, gt_iff_lt, gt_iff_lt, BitVec.lt_def]
      change (9223372036854775807 : Int) < x.toNat ↔ 9223372036854775807 < x.toNat
      omega
    change _ = lengthened info .int64 x.toNat
    simp only [lengthened, hin, ofInt_toNat, BitVec.setWidth_eq]
    rfl
  | toUInt64 hs htype =>
    obtain ⟨x, hv, -⟩ := h.long_cases (hs ▸ rfl)
    rw [hs] at hv
    subst hv htype
    have hhigh := x.toInt_lt
    have hin : ¬InRange ILMachineType.uint64.range x.toInt ↔ x.toInt < 0 := by
      rw [not_inRange_iff]
      change x.toInt < 0 ∨ x.toInt > 18446744073709551615 ↔ _
      omega
    change _ = lengthened info .uint64 x.toInt
    simp only [lengthened, hin, BitVec.ofInt_toInt]
    rfl

/-- A word of a short type is not negative where its number is not. -/
theorem Leaves.toInt_short (h : Leaves v value) (hs : v.valueType.isWord)
    (hs' : v.valueType ≠ .uint32) : value.toInt = some v.num := by
  obtain ⟨x, hx, hv, rfl⟩ := h.word_cases hs
  have hbits := ofInt_num hs (x := x)
  have hin := h.inRange_num (isI4_of_isWord hs)
  rw [← hv] at hbits
  rw [StackValue.toInt, ← hbits, BitVec.toInt_ofInt_eq_self (by decide)]
  all_goals
    generalize v.valueType = s at hs hs' hin
    have hrange : -2147483648 ≤ s.range.1 ∧ s.range.2 ≤ 2147483647 := by
      cases s <;> first | decide | (cases hs; done) | exact absurd rfl hs'
    have hlow := hrange.1.trans hin.1
    have hhigh := hin.2.trans hrange.2
    omega

/-- What is emitted for a type of 64 bits. -/
inductive LongCode (info : ILGenInfo) (s t : ILMachineType) : List ILOp → Prop
  | same (h : s = t) : LongCode info s t []
  | short (h : s.isWord && s ≠ .uint32) (ht : t = .int64) : LongCode info s t [.conv .i8]
  | nativeInt (h : s = .nativeInt) (ht : t = .int64) : LongCode info s t [.conv .i8]
  | unsigned (h : s.isI4 && !s.isSigned) : LongCode info s t [.conv .u8]
  | convSigned (h : s.isSigned && s.isI4) (ht : t = .uint64) :
      LongCode info s t (convSigned info .u8)
  | checkSigned (h : s = .int64) (ht : t = .uint64) : LongCode info s t (checkSigned info .u8)
  | checkUnsigned (h : s = .uint64) (ht : t = .int64) :
      LongCode info s t (checkUnsigned info .i8)

theorem longCode_of_long (info : ILGenInfo) (hs : s ≠ .decimal) (ht : t.isLong) :
    LongCode info s t (ilGenCast info s t) := by
  cases t <;> first | (cases ht; done) | skip
  all_goals cases s <;> first
    | exact absurd rfl hs
    | exact .same rfl
    | exact .short rfl rfl
    | exact .nativeInt rfl rfl
    | exact .unsigned rfl
    | exact .convSigned rfl rfl
    | exact .checkSigned rfl rfl
    | exact .checkUnsigned rfl rfl

theorem wrap_long (ht : t.isLong) (n : Int) :
    (t.convType.wrap n : StackValue native) = .int64 (BitVec.ofInt 64 n) := by
  cases t <;> first | rfl | cases ht

theorem range_long (ht : t.isLong) : t.convType.range native = t.range := by
  cases t <;> first | rfl | cases ht

theorem converted_long (info : ILGenInfo) (ht : t.isLong) {n : Int} (hin : InRange t.range n)
    (stack : Stack native) :
    converted info t.convType n stack = .ok (.int64 (BitVec.ofInt 64 n) :: stack) := by
  rw [converted, range_long ht, if_neg (by simp [hin]), wrap_long ht]

/-- A number without a sign is read alike with and without it. -/
theorem toNat_of_toInt {n : Int} (hn : value.toInt = some n) (hnonneg : 0 ≤ n) :
    value.toNat = some n.toNat := by
  cases value with
  | int32 x | int64 x | nativeInt x =>
    have hx := Option.some.inj hn
    exact congrArg some (hx ▸ toNat_of_nonneg (hx ▸ hnonneg))
  | decimal d => cases hn

/-- The conversions to 64 bits keep the number, but for a negative one that is not checked. -/
theorem run_cast_long (lib : SystemDecimal) (info : ILGenInfo) (h : Leaves v value)
    (hint : v.valueType ≠ .decimal) (ht : t.isLong)
    (hfine : t = .int64 ∨ info.overflowInsns ∨ 0 ≤ v.num) (stack : Stack native) :
    run lib (ilGenCast info v.valueType t) (value :: stack) =
      converted info t.convType v.num stack := by
  have hcode := longCode_of_long info hint ht
  generalize ilGenCast info v.valueType t = code at hcode ⊢
  cases hcode with
  | same hsame =>
    obtain ⟨x, hv, rfl⟩ := h.long_cases (hsame ▸ ht)
    rw [hsame] at hv
    rw [hv, converted_long info ht (inRange_long ht x), ofInt_num_long ht, run_nil]
  | short hs htype =>
    rw [Bool.and_eq_true, decide_eq_true_eq] at hs
    subst htype
    rw [converted_long info ht (inRange_int64 h (isI4_of_isWord hs.1))]
    simp [ILOp.exec, ConvType.conv, h.toInt_short hs.1 hs.2, ConvType.wrap]
  | nativeInt hs htype =>
    subst htype
    rw [converted_long info ht (inRange_int64 h (hs ▸ rfl))]
    simp [ILOp.exec, ConvType.conv, h.toInt (hs ▸ rfl), ConvType.wrap]
  | unsigned hs =>
    rw [Bool.and_eq_true] at hs
    obtain ⟨n, hn, hnum⟩ := h.toNat hint hs.2
    have hin : InRange t.range v.num := by
      cases t <;> first | (cases ht; done) | skip
      · exact inRange_int64 h hs.1
      · exact (inRange_uint64 h hs.1).2 (by rw [hnum]; exact Int.natCast_nonneg _)
    rw [converted_long info ht hin, hnum]
    simp [ILOp.exec, ConvType.conv, hn, ConvType.wrap]
  | convSigned hs htype =>
    rw [Bool.and_eq_true] at hs
    subst htype
    have hn := h.toInt hs.1
    refine run_convSigned lib info hn (fun hovf => ?_) stack
    have hnonneg : 0 ≤ v.num := by
      rcases hfine with hfalse | hchecked | hnonneg
      · cases hfalse
      · exact absurd hchecked hovf
      · exact hnonneg
    rw [ConvType.conv, toNat_of_toInt hn hnonneg, Option.map_some, Int.toNat_of_nonneg hnonneg]
  | checkSigned hs htype =>
    obtain ⟨x, hv, rfl⟩ := h.long_cases (hs ▸ rfl)
    rw [hs] at hv
    subst hv htype
    exact run_checkSigned lib info rfl (congrArg StackValue.int64 BitVec.ofInt_toInt.symm) stack
  | checkUnsigned hs htype =>
    obtain ⟨x, hv, rfl⟩ := h.long_cases (hs ▸ rfl)
    rw [hs] at hv
    subst hv htype
    have hx : StackValue.int64 x = (ConvType.i8.wrap x.toNat : StackValue native) :=
      congrArg StackValue.int64 (ofInt_num_long (t := .uint64) rfl x).symm
    exact run_checkUnsigned lib info rfl hx stack

/-! ### Agreement -/

theorem leaves_long_iff (ht : t.isLong) {x y : BitVec 64} :
    Leaves (.ofI8 t x) (.int64 y : StackValue native) ↔ x = y := by
  constructor
  · intro h
    cases h <;> rfl
  · rintro rfl
    cases t <;> first | (cases ht; done) | skip
    · exact .int64 x
    · exact .uint64 x

theorem castAgrees_of_converted_long (h : Leaves v value) (hint : v.valueType ≠ .decimal)
    (ht : t.isLong) (hfine : t = .int64 ∨ info.overflowInsns ∨ 0 ≤ v.num) :
    CastAgrees lib info v value t := by
  intro v' hv'
  rw [ilGenCastConst_long info h hint ht, lengthened] at hv'
  split at hv'
  · cases hv'
  case isFalse hin =>
    cases hv'
    refine ⟨rfl, .int64 (BitVec.ofInt 64 v.num), (leaves_long_iff ht).2 rfl, fun stack => ?_⟩
    rw [run_cast_long lib info h hint ht hfine, converted, range_long ht, if_neg hin, wrap_long ht]

theorem setWidth_eq_ofInt_iff {w : Nat} (y : BitVec w) (hw : w ≤ 64) :
    y.setWidth 64 = BitVec.ofInt 64 y.toInt ↔ w = 64 ∨ 0 ≤ y.toInt := by
  change y.setWidth 64 = y.signExtend 64 ↔ _
  rcases Nat.eq_or_lt_of_le hw with rfl | hlt
  · simp
  · rw [eq_comm, signExtend_eq_setWidth_iff y hlt]
    have hne : w ≠ 64 := by omega
    simp [hne]

/-- Without a check a negative number is extended with zeros, where there is room. -/
theorem castAgrees_unchecked (h : Leaves v value) (hs : v.valueType.isSigned && v.valueType.isI4)
    (hovf : ¬info.overflowInsns) (hneg : v.num < 0) :
    CastAgrees lib info v value .uint64 ↔ v.valueType = .nativeInt ∧ native = .int64 := by
  have hint : v.valueType ≠ .decimal := by
    intro hdecimal
    rw [hdecimal] at hs
    cases hs
  have hconst : ilGenCastConst info v v.valueType .uint64 =
      some (.ofI8 .uint64 (BitVec.ofInt 64 v.num)) := by
    rw [ilGenCastConst_long info h hint rfl, lengthened, if_neg (by simp [hovf])]
  have hcode : ilGenCast info v.valueType .uint64 = [.conv .u8] := by
    generalize v.valueType = s at hs
    cases s <;> first | (cases hs; done) | exact if_neg hovf
  have hrun : ∀ {w : Nat} (y : BitVec w), value.toNat = some y.toNat → ∀ stack,
      run lib (ilGenCast info v.valueType .uint64) (value :: stack) =
        .ok (.int64 (y.setWidth 64) :: stack) := fun y hy stack => by
    rw [hcode, ← ofInt_toNat]
    simp [ILOp.exec, ConvType.conv, hy, ConvType.wrap]
  by_cases hnative : v.valueType = .nativeInt
  · obtain ⟨x, rfl, rfl⟩ := h.nativeInt_cases hnative
    have hx := BitVec.toInt_signExtend_of_le (x := x) (le_bits native)
    have hnum : (ILEvalValue.ofI4 .nativeInt x).num = x.toInt := rfl
    rw [castAgrees_iff hconst rfl (hrun _ rfl), leaves_long_iff rfl, eq_comm, hnum, ← hx,
      setWidth_eq_ofInt_iff _ (bits_le native)]
    rw [hnum] at hneg
    cases native <;> simp [NativeInt.bits, hnative, hneg]
  · have hword : v.valueType.isWord := by
      generalize v.valueType = s at hs hnative
      cases s <;> first | rfl | (cases hs; done) | exact absurd rfl hnative
    obtain ⟨x, hx, hv, rfl⟩ := h.word_cases hword
    have hnum := num_signed hs
    have hx4 : v.i4Value = x := by rw [hv]; rfl
    rw [hx4] at hnum
    rw [castAgrees_iff hconst rfl (hrun x rfl), leaves_long_iff rfl, eq_comm, hnum,
      setWidth_eq_ofInt_iff x (by decide)]
    rw [hnum] at hneg
    simp [hnative, hneg]

end Pnet.Codegen
