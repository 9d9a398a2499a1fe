import Pnet.Codegen.CastToDecimal

/-! Chains of casts: the constant that is left at the end, and what the conversions leave. -/
namespace Pnet.Codegen
open Pnet.Support Pnet.Engine

variable {native : NativeInt} {t s : ILMachineType} {v : ILEvalValue} {value : StackValue native}
variable {lib : SystemDecimal} {info : ILGenInfo}

/-! ### One cast -/

/-- What the cast of a constant needs to agree with the emitted conversions. -/
def CastFine (lib : SystemDecimal) (native : NativeInt) (info : ILGenInfo) (v : ILEvalValue)
    (t : ILMachineType) : Prop :=
  match v.valueType, t with
  -- the type that is recorded is `int8`
  | .boolean, .int16 | .int8, .int16 | .uint8, .int16 => False
  -- the constant keeps its sign, and `conv.u8` extends with zeros
  | .int8, .uint64 | .int16, .uint64 | .int32, .uint64 => info.overflowInsns ∨ 0 ≤ v.num
  | .nativeInt, .uint64 => info.overflowInsns ∨ 0 ≤ v.num ∨ native = .int64
  -- the sign bit of 32 bits is not the one of a wider native type
  | .uint32, .nativeInt | .nativeUInt, .nativeInt =>
    info.overflowInsns ∨ v.num < 2 ^ 31 ∨ native = .int32
  | .uint64, .nativeInt =>
    v.num < 2 ^ 31 ∨ 2 ^ 32 ≤ v.num ∨ native = .int32 ∧ ¬info.overflowInsns
  | .int8, .nativeUInt | .int16, .nativeUInt | .int32, .nativeUInt | .nativeInt, .nativeUInt =>
    info.overflowInsns ∨ 0 ≤ v.num ∨ native = .int32
  | .int64, .nativeUInt =>
    0 ≤ v.num ∨ v.num < -2 ^ 31 ∨ native = .int32 ∧ ¬info.overflowInsns
  -- the emitted code tests for zero
  | .decimal, .boolean => False
  -- `ILDecimalToInt64` lets values below the least integer pass
  | .decimal, .int64 =>
    -2 ^ 63 ≤ integerPart v.decValue ∨ integerPart v.decValue ≤ -2 ^ 63 - 2 ^ 32
  -- the way through `int64` rounds towards another side
  | .decimal, .uint64 => info.clsCompliant → v.decValue.isNeg = false →
    integerPart v.decValue < 2 ^ 64 → SubtractionFits lib v.decValue
  | .decimal, .nativeUInt => info.clsCompliant → v.decValue.isNeg = false →
    integerPart v.decValue < 2 ^ 32 → SubtractionFits lib v.decValue
  -- `conv.i8` extends with the sign bit
  | .uint32, .decimal => info.clsCompliant → v.num < 2 ^ 31
  | _, _ => True

theorem Leaves.decimal_cases (h : Leaves v value) (hs : v.valueType = .decimal) :
    ∃ d, v = .ofDecimal d ∧ value = .decimal d := by
  cases h with
  | decimal d => exact ⟨d, rfl, rfl⟩
  | @word s ht x hx => cases s <;> first | (cases hs; done) | cases ht
  | int64 x | uint64 x | nativeInt x | nativeUInt x => cases hs

theorem num_nonneg_long (hs : v.valueType = .uint64) : 0 ≤ v.num := by
  rw [ILEvalValue.num, hs]
  exact Int.natCast_nonneg _

section Integers

variable (hint : v.valueType ≠ .decimal)
include hint

theorem castFine_boolean : CastFine lib native info v .boolean := by
  unfold CastFine
  generalize v.valueType = s at hint ⊢
  cases s <;> trivial

theorem castFine_narrow (ht : t.isNarrow) :
    CastFine lib native info v t ↔ ¬Misrecorded v.valueType t := by
  unfold CastFine
  generalize v.valueType = s at hint ⊢
  cases t <;> first | (cases ht; done) | skip
  all_goals cases s <;> first
    | exact iff_of_true trivial (by decide)
    | exact iff_of_false (fun h => h) (by decide)

theorem castFine_int64 : CastFine lib native info v .int64 := by
  unfold CastFine
  generalize v.valueType = s at hint ⊢
  cases s <;> trivial

theorem castFine_uint64 : CastFine lib native info v .uint64 ↔
    ((v.valueType.isSigned && v.valueType.isI4) → ¬info.overflowInsns → v.num < 0 →
      v.valueType = .nativeInt ∧ native = .int64) := by
  unfold CastFine
  generalize v.valueType = s at hint ⊢
  cases s with
  | decimal => exact absurd rfl hint
  | int8 | int16 | int32 | nativeInt =>
    simp only [ILMachineType.isSigned, ILMachineType.isI4]
    by_cases hovf : info.overflowInsns <;> by_cases hneg : 0 ≤ v.num <;>
      simp [hovf, hneg, not_lt.2, not_le.1]
  | _ => simp [ILMachineType.isSigned, ILMachineType.isI4]

theorem castFine_nativeInt (h : Leaves v value) : CastFine lib native info v .nativeInt ↔
    nativeDenied info v.valueType .nativeInt v.num ∨ v.num < 2147483648 ∨
      native = .int32 ∧ ¬info.overflowInsns := by
  have hlt := num_lt h
  unfold CastFine
  generalize v.valueType = s at hint hlt ⊢
  cases s with
  | decimal => exact absurd rfl hint
  | uint32 | nativeUInt | uint64 | int64 =>
    simp only [nativeDenied]
    by_cases hovf : info.overflowInsns <;> cases native <;> simp [hovf] <;> omega
  | _ => exact iff_of_true trivial (.inr (.inl (hlt rfl)))

theorem castFine_nativeUInt : CastFine lib native info v .nativeUInt ↔
    nativeDenied info v.valueType .nativeUInt v.num ∨ 0 ≤ v.num ∨
      native = .int32 ∧ ¬info.overflowInsns := by
  have hnonneg := num_nonneg (v := v)
  have hlong := num_nonneg_long (v := v)
  unfold CastFine
  generalize v.valueType = s at hint hnonneg hlong ⊢
  cases s with
  | decimal => exact absurd rfl hint
  | int8 | int16 | int32 | nativeInt | int64 =>
    simp only [nativeDenied]
    by_cases hovf : info.overflowInsns <;> cases native <;> simp [hovf] <;> omega
  | uint64 => exact iff_of_true trivial (.inr (.inl (hlong rfl)))
  | _ => exact iff_of_true trivial (.inr (.inl (hnonneg rfl)))

theorem castFine_decimal : CastFine lib native info v .decimal ↔
    (v.valueType = .uint32 → info.clsCompliant → v.num < 2 ^ 31) := by
  unfold CastFine
  generalize v.valueType = s at hint ⊢
  cases s <;> simp

end Integers

/-- A long constant only changes its type. -/
theorem castAgrees_retype (h : Leaves v value) (hs : v.valueType = .int64)
    (hovf : ¬info.overflowInsns) : CastAgrees lib info v value .uint64 := by
  obtain ⟨x, hv, rfl⟩ := h.long_cases (hs ▸ rfl)
  rw [hs] at hv
  subst hv
  have hconst : ilGenCastConst info (.ofI8 .int64 x) .int64 .uint64 = some (.ofI8 .uint64 x) :=
    if_neg (by simp [hovf])
  have hcode : ilGenCast info .int64 .uint64 = [] := if_neg hovf
  exact (castAgrees_iff hconst rfl fun stack => by rw [hs, hcode, run_nil]).2 (.uint64 x)

/-- The constant cast to a type agrees with the emitted conversions on exactly the fine
constants. -/
theorem castAgrees_iff_castFine (hlib : lib.Documented) (h : Leaves v value) :
    CastAgrees lib info v value t ↔ CastFine lib native info v t := by
  by_cases hint : v.valueType = .decimal
  · obtain ⟨d, rfl, rfl⟩ := h.decimal_cases hint
    cases t with
    | boolean => exact iff_of_false (not_castAgrees_decimal_boolean hlib) (fun h => h)
    | int64 => exact castAgrees_decimal_int64 hlib
    | uint64 => exact castAgrees_decimal_uint64 hlib
    | nativeInt => exact iff_of_true (castAgrees_decimal_nativeInt hlib) trivial
    | nativeUInt => exact castAgrees_decimal_nativeUInt hlib
    | decimal =>
      have hconst : ilGenCastConst info (.ofDecimal d) .decimal .decimal =
        some (.ofDecimal d) := rfl
      exact iff_of_true ((castAgrees_iff hconst rfl fun stack => rfl).2 h) trivial
    | _ => exact iff_of_true (castAgrees_decimal_narrow hlib rfl) trivial
  · cases t with
    | boolean => exact iff_of_true (castAgrees_boolean h hint) (castFine_boolean hint)
    | int64 =>
      exact iff_of_true (castAgrees_of_converted_long h hint rfl (.inl rfl)) (castFine_int64 hint)
    | uint64 =>
      rw [castFine_uint64 hint]
      by_cases hfine : info.overflowInsns ∨ 0 ≤ v.num
      · refine iff_of_true (castAgrees_of_converted_long h hint rfl (.inr hfine)) ?_
        exact fun _ hovf hneg => absurd hfine (by simp [hovf, hneg])
      rw [not_or, not_le] at hfine
      by_cases hs : v.valueType.isSigned && v.valueType.isI4
      · rw [castAgrees_unchecked h hs hfine.1 hfine.2]
        simp [Bool.and_eq_true _ _ ▸ hs, hfine]
      · refine iff_of_true (castAgrees_retype h ?_ hfine.1) fun hs' => absurd hs' hs
        have hnonneg := num_nonneg (v := v)
        have hlong := num_nonneg_long (v := v)
        generalize v.valueType = s at hs hint hnonneg hlong ⊢
        cases s <;> first
          | rfl
          | exact absurd rfl hs
          | exact absurd rfl hint
          | exact absurd (hnonneg rfl) hfine.2.not_ge
          | exact absurd (hlong rfl) hfine.2.not_ge
    | nativeInt => rw [castAgrees_nativeInt h hint, castFine_nativeInt hint h]
    | nativeUInt => rw [castAgrees_nativeUInt h hint, castFine_nativeUInt hint]
    | decimal => rw [castAgrees_to_decimal hlib h hint, castFine_decimal hint]
    | _ => rw [castAgrees_narrow h hint rfl, castFine_narrow hint rfl]

/-! ### A class that computes as `support/decimal.c` does -/

/-- Integers are added without a scale. -/
def addDecimals (a b : ILDecimal) : Option ILDecimal :=
  if a.getPt = 0 ∧ b.getPt = 0 ∧
      InRange ILMachineType.decimal.range (integerPart a + integerPart b) then
    some (decimalOfInt (integerPart a + integerPart b))
  else ilDecimalAdd a b .halfEven

def runtimeDecimal : SystemDecimal where
  opImplicit _ n := decimalOfInt n
  opExplicit t d := if InRange t.range (integerPart d) then some (integerPart d) else none
  opEquality a b := a.toRat = b.toRat
  opAddition := addDecimals
  opSubtraction a b := ilDecimalSub a b .halfEven
  ctor low middle high negative scale :=
    if scale.toNat ≤ 28 then
      some ⟨ILDecimal.mkFlags negative scale.toNat, high, middle, low⟩
    else none

theorem getPt_decimalOfInt (n : Int) : (decimalOfInt n).getPt = 0 := by
  by_cases hn : n < 0 <;> simp [ILDecimal.getPt, decimalOfInt, hn]

theorem integerPart_decimalOfInt {n : Int} (hn : InRange ILMachineType.decimal.range n) :
    integerPart (decimalOfInt n) = n := by
  obtain ⟨hlow, hhigh⟩ := hn
  change -79228162514264337593543950335 ≤ n at hlow
  change n ≤ 79228162514264337593543950335 at hhigh
  have hneg : (decimalOfInt n).isNeg = decide (n < 0) := by
    rw [ILDecimal.isNeg, decimalOfInt]
    split <;> simp_all
  have htruncate : ilDecimalTruncate (decimalOfInt n) = decimalOfInt n :=
    if_neg (by rw [getPt_decimalOfInt]; decide)
  have hmantissa : (decimalOfInt n).mantissa = n.natAbs := by
    rw [mantissa_words, decimalOfInt]
    simp only [BitVec.toNat_ofNat]
    omega
  rw [integerPart_eq, htruncate, hneg, hmantissa]
  by_cases hnegative : n < 0
  · rw [if_pos (decide_eq_true hnegative)]
    omega
  · rw [if_neg (by simpa using hnegative)]
    omega

theorem runtimeDecimal_documented : runtimeDecimal.Documented where
  opImplicit _ _ _ := rfl
  opExplicit _ _ := rfl
  opEquality _ _ := decide_eq_true_iff
  opAddition m n hm hn hsum := by
    change addDecimals _ _ = _
    rw [addDecimals, integerPart_decimalOfInt hm, integerPart_decimalOfInt hn, if_pos]
    exact ⟨getPt_decimalOfInt m, getPt_decimalOfInt n, hsum⟩
  ctor low middle high negative := by cases negative <;> rfl

/-! ### Chains -/

/-- `ILNode_EvalConst(ILNode_CastSimple)` of nested casts, from the inner one to the outer one. -/
def castChain (info : ILGenInfo) (v : ILEvalValue) : List ILMachineType → Option ILEvalValue
  | [] => some v
  | t :: ts => (ilGenCastConst info v v.valueType t).bind fun v' => castChain info v' ts

/-- `ILNode_GenValue(ILNode_CastSimple)`: a cast starts from the type that it is told of. -/
def genChain (info : ILGenInfo) (fromType : ILMachineType) : List ILMachineType → List ILOp
  | [] => []
  | t :: ts => ilGenCast info fromType t ++ genChain info t ts

/-- If the constant passes through all casts, the emitted conversions leave what it has become, of
the type of the last cast. -/
def ChainAgrees (lib : SystemDecimal) (info : ILGenInfo) (v : ILEvalValue)
    (value : StackValue native) (ts : List ILMachineType) : Prop :=
  ∀ v', castChain info v ts = some v' → v'.valueType = ts.getLastD v.valueType ∧
    ∃ value' : StackValue native, Leaves v' value' ∧ ∀ stack,
      run lib (genChain info v.valueType ts) (value :: stack) = .ok (value' :: stack)

/-- Each cast is a fine one for the constant that it meets. -/
def ChainFine (lib : SystemDecimal) (native : NativeInt) (info : ILGenInfo) (v : ILEvalValue) :
    List ILMachineType → Prop
  | [] => True
  | t :: ts => CastFine lib native info v t ∧
      ∀ v', ilGenCastConst info v v.valueType t = some v' → ChainFine lib native info v' ts

theorem ChainFine.of_prefix {ts ps : List ILMachineType}
    (hfine : ChainFine lib native info v ts) (hps : ps <+: ts) :
    ChainFine lib native info v ps := by
  induction ps generalizing v ts with
  | nil => trivial
  | cons t ps ih =>
    obtain ⟨rest, rfl⟩ := hps
    exact ⟨hfine.1, fun v' hv' => ih (hfine.2 v' hv') ⟨rest, rfl⟩⟩

theorem chainAgrees_nil (h : Leaves v value) : ChainAgrees lib info v value [] := by
  intro v' hv'
  cases hv'
  exact ⟨rfl, value, h, fun stack => rfl⟩

/-- A chain agrees if what is left after its first cast does. -/
theorem chainAgrees_cons {ts : List ILMachineType} {v' : ILEvalValue}
    {value' : StackValue native} (hconst : ilGenCastConst info v v.valueType t = some v')
    (htype : v'.valueType = t)
    (hrun : ∀ stack, run lib (ilGenCast info v.valueType t) (value :: stack) =
      .ok (value' :: stack)) :
    ChainAgrees lib info v value (t :: ts) ↔ ChainAgrees lib info v' value' ts := by
  have hcast : castChain info v (t :: ts) = castChain info v' ts := by
    rw [castChain, hconst, Option.bind_some]
  have hcode : ∀ stack, run lib (genChain info v.valueType (t :: ts)) (value :: stack) =
      run lib (genChain info v'.valueType ts) (value' :: stack) := fun stack => by
    rw [genChain, run_append, hrun, except_bind_ok, htype]
  subst htype
  rw [ChainAgrees, ChainAgrees, hcast, List.getLastD_cons]
  simp only [hcode]

theorem chainAgrees_of_chainFine (hlib : lib.Documented) {ts : List ILMachineType}
    (h : Leaves v value) (hfine : ChainFine lib native info v ts) :
    ChainAgrees lib info v value ts := by
  induction ts generalizing v value with
  | nil => exact chainAgrees_nil h
  | cons t ts ih =>
    intro v'' hv''
    obtain ⟨v', hv', hrest⟩ := Option.bind_eq_some_iff.1 hv''
    obtain ⟨htype, value', hleaves, hrun⟩ := (castAgrees_iff_castFine hlib h).2 hfine.1 v' hv'
    have hagrees := ih hleaves (hfine.2 v' hv')
    exact (chainAgrees_cons hv' htype hrun).2 hagrees v'' hv''

theorem castAgrees_of_chainAgrees (hagrees : ChainAgrees lib info v value [t]) :
    CastAgrees lib info v value t := by
  intro v' hv'
  obtain ⟨htype, value', hleaves, hrun⟩ := hagrees v' (by rw [castChain, hv']; rfl)
  refine ⟨htype, value', hleaves, fun stack => ?_⟩
  rw [← hrun stack, genChain, genChain, List.append_nil]

/-- The constant at the end of a chain, and of each chain that it goes on from, is what the
emitted conversions leave, if and only if every cast of the chain is a fine one. -/
theorem chainAgrees_iff (lib : SystemDecimal) (hlib : lib.Documented) (native : NativeInt)
    (info : ILGenInfo) (v : ILEvalValue) (value : StackValue native) (h : Leaves v value)
    (ts : List ILMachineType) :
    (∀ ps, ps <+: ts → ChainAgrees lib info v value ps) ↔ ChainFine lib native info v ts := by
  constructor
  · intro hagrees
    induction ts generalizing v value with
    | nil => trivial
    | cons t ts ih =>
      have hfirst := castAgrees_of_chainAgrees (hagrees [t] ⟨ts, rfl⟩)
      refine ⟨(castAgrees_iff_castFine hlib h).1 hfirst, fun v' hv' => ?_⟩
      obtain ⟨htype, value', hleaves, hrun⟩ := hfirst v' hv'
      refine ih v' value' hleaves fun ps hps => ?_
      have hlonger := hagrees (t :: ps) (List.cons_prefix_cons.2 ⟨rfl, hps⟩)
      exact (chainAgrees_cons hv' htype hrun).1 hlonger
  · intro hfine ps hps
    exact chainAgrees_of_chainFine hlib h (hfine.of_prefix hps)

theorem chainAgrees_three_hundred :
    ChainFine runtimeDecimal .int64 ⟨false, false⟩ (.ofI4 .int32 300) [.uint8, .int64, .decimal] ∧
      ∀ ps, ps <+: [.uint8, .int64, .decimal] →
        ChainAgrees runtimeDecimal ⟨false, false⟩ (.ofI4 .int32 300)
          (.int32 300 : StackValue .int64) ps := by
  have hfine : ChainFine runtimeDecimal .int64 ⟨false, false⟩ (.ofI4 .int32 300)
      [.uint8, .int64, .decimal] := by
    refine ⟨trivial, fun v hv => ?_⟩
    cases hv
    refine ⟨trivial, fun v hv => ?_⟩
    cases hv
    exact ⟨trivial, fun v hv => trivial⟩
  refine ⟨hfine, ?_⟩
  exact (chainAgrees_iff runtimeDecimal runtimeDecimal_documented .int64 ⟨false, false⟩
    (.ofI4 .int32 300) (.int32 300) (.word rfl trivial) [.uint8, .int64, .decimal]).2 hfine

/-- `(ulong)(sbyte)(-1)` is folded with the sign, and computed without it. -/
theorem chain_minus_one_differs :
    Leaves (.ofI4 .int8 (-1)) (.int32 (-1) : StackValue .int64) ∧
      castChain ⟨false, false⟩ (.ofI4 .int8 (-1)) [.uint64] =
        some (.ofI8 .uint64 0xFFFFFFFFFFFFFFFF) ∧
      run runtimeDecimal (genChain ⟨false, false⟩ .int8 [.uint64])
        [(.int32 (-1) : StackValue .int64)] = .ok [.int64 0xFFFFFFFF] ∧
      ¬ChainAgrees runtimeDecimal ⟨false, false⟩ (.ofI4 .int8 (-1))
        (.int32 (-1) : StackValue .int64) [.uint64] := by
  have hcast : castChain ⟨false, false⟩ (.ofI4 .int8 (-1)) [.uint64] =
    some (.ofI8 .uint64 0xFFFFFFFFFFFFFFFF) := rfl
  have hrun : run runtimeDecimal (genChain ⟨false, false⟩ .int8 [.uint64])
    [(.int32 (-1) : StackValue .int64)] = .ok [.int64 0xFFFFFFFF] := rfl
  refine ⟨.word rfl rfl, hcast, hrun, fun hagrees => ?_⟩
  obtain ⟨-, value, hleaves, hvalue⟩ := hagrees _ hcast
  have heq := (hvalue []).symm.trans hrun
  cases heq
  cases hleaves

end Pnet.Codegen
