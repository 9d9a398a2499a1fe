import Pnet.Support.DecimalArith
import Pnet.Support.DecimalText

/-! The canonical form of decimals, which the operations keep but for a truncation to a zero
with a sign. -/
namespace Pnet.Support.ILDecimal
open Pnet.Lib BigEndian

structure Canonical (d : ILDecimal) : Prop where
  flags : d.flags = mkFlags d.isNeg d.getPt
  le : d.getPt ≤ 28
  shortest : 0 < d.getPt → d.mantissa % 10 ≠ 0
  zero : d.mantissa = 0 → d.flags = 0

/-- The operations that return decimals. -/
inductive Op where
  | add (valuea valueb : ILDecimal) (roundMode : RoundMode)
  | sub (valuea valueb : ILDecimal) (roundMode : RoundMode)
  | mul (valuea valueb : ILDecimal) (roundMode : RoundMode)
  | div (valuea valueb : ILDecimal) (roundMode : RoundMode)
  | rem (valuea valueb : ILDecimal) (roundMode : RoundMode)
  | floor (value : ILDecimal)
  | truncate (value : ILDecimal)
  | round (value : ILDecimal) (places : Int) (roundMode : RoundMode)
  | neg (value : ILDecimal)
  | parse (str : List Char) (roundMode : RoundMode)

def Op.operands : Op → List ILDecimal
  | .add a b _ | .sub a b _ | .mul a b _ | .div a b _ | .rem a b _ => [a, b]
  | .floor a | .truncate a | .round a _ _ | .neg a => [a]
  | .parse _ _ => []

/-- `none` is a failure. -/
def Op.result : Op → Option ILDecimal
  | .add a b roundMode => ilDecimalAdd a b roundMode
  | .sub a b roundMode => ilDecimalSub a b roundMode
  | .mul a b roundMode => ilDecimalMul a b roundMode
  | .div a b roundMode => ilDecimalDiv a b roundMode
  | .rem a b roundMode => ilDecimalRem a b roundMode
  | .floor a => some (ilDecimalFloor a)
  | .truncate a => some (ilDecimalTruncate a)
  | .round a places roundMode => ilDecimalRound a places roundMode
  | .neg a => some (ilDecimalNeg a)
  | .parse str roundMode => ilDecimalParse str roundMode

/-- A negative number without a whole part is truncated. -/
def Op.LosesSign : Op → Prop
  | .truncate a => a.isNeg = true ∧ a.mantissa < 10 ^ a.getPt
  | _ => False

variable {a b d : ILDecimal} {roundMode : RoundMode}

/-! ### What is built -/

theorem canonical_zero : Canonical ⟨0, 0, 0, 0⟩ :=
  ⟨by decide, by decide, by decide, fun _ => rfl⟩

theorem flags_build (negative : Bool) (normalized : List ILUInt32 × Int) :
    (build negative normalized).flags =
      mkFlags (if (ofWords 0 normalized.1).wordsZero then false else negative)
        normalized.2.toNat := rfl

theorem canonical_build {normalized : List ILUInt32 × Int} (hnormal : Normal normalized)
    (negative : Bool) : Canonical (build negative normalized) := by
  have hle := hnormal.le
  have hpt := getPt_build hnormal negative
  have hmantissa := mantissa_build hnormal negative
  have hwords := wordsZero_iff (ofWords 0 normalized.1)
  rw [mantissa, words_ofWords 0 hnormal.length] at hwords
  have hneg : (build negative normalized).isNeg =
      (if (ofWords 0 normalized.1).wordsZero then false else negative) :=
    isNeg_mkFlags _ (by omega) _ _ _
  apply Canonical.mk
  · rw [flags_build, hneg, hpt]
  · rw [hpt]
    omega
  · intro hpos
    rw [hmantissa]
    rw [hpt] at hpos
    exact hnormal.shortest (by omega)
  · intro hzero
    rw [hmantissa] at hzero
    have hdecpt : normalized.2.toNat = 0 := by
      by_contra hne
      have hshortest := hnormal.shortest (by omega)
      rw [hzero] at hshortest
      exact hshortest rfl
    rw [flags_build, hwords.2 hzero, hdecpt, if_pos rfl]
    rfl

theorem canonical_normalize {ws : List ILUInt32} {decpt : Nat} {negative : Bool}
    (h : (normalize ws decpt roundMode).map (build negative) = some d) : Canonical d := by
  obtain ⟨normalized, hnormalized, hd⟩ := Option.map_eq_some_iff.1 h
  rw [← hd]
  exact canonical_build (normalize_normal hnormalized) negative

theorem canonical_add (h : ilDecimalAdd a b roundMode = some d) : Canonical d :=
  canonical_normalize h

theorem canonical_sub (h : ilDecimalSub a b roundMode = some d) : Canonical d :=
  canonical_normalize h

theorem canonical_mul (h : ilDecimalMul a b roundMode = some d) : Canonical d :=
  canonical_normalize h

theorem canonical_div (hb : b.getPt ≤ 28) (h : ilDecimalDiv a b roundMode = some d) :
    Canonical d := by
  obtain ⟨quotient, _, hquotient⟩ := Option.bind_eq_some_iff.1 h
  have hdecpt : (a.getPt : Int) - b.getPt + 29 = ((a.getPt + 29 - b.getPt : Nat) : Int) := by omega
  rw [hdecpt] at hquotient
  exact canonical_normalize hquotient

theorem canonical_rem (h : ilDecimalRem a b roundMode = some d) : Canonical d := by
  obtain ⟨_, _, hrest⟩ := Option.bind_eq_some_iff.1 h
  obtain ⟨_, _, hsub⟩ := Option.bind_eq_some_iff.1 hrest
  exact canonical_sub hsub

/-! ### Truncation -/

theorem flags_and_sign (d : ILDecimal) : d.flags &&& 0x80000000 = mkFlags d.isNeg 0 := by
  have htwoPow : (0x80000000 : ILUInt32) = BitVec.twoPow 32 31 := by decide
  have hand := BitVec.and_twoPow d.flags 31
  unfold isNeg
  rw [htwoPow, hand]
  split
  · decide
  · decide

theorem divByTens_spec (count : Nat) (ws : List ILUInt32) :
    (divByTens count ws).length = ws.length ∧ value (divByTens count ws) = value ws / 10 ^ count := by
  induction count generalizing ws with
  | zero => exact ⟨rfl, by rw [divByTens, Nat.pow_zero, Nat.div_one]⟩
  | succ count ih =>
    obtain ⟨hlength, hvalue⟩ := ih (divByTen ws).1
    rw [divByTens]
    exact ⟨hlength.trans (length_divByTen ws), by
      rw [hvalue, (value_divByTen ws).1, Nat.div_div_eq_div_mul, ← Nat.pow_succ']⟩

theorem truncate_of_getPt_eq (hpt : d.getPt = 0) : ilDecimalTruncate d = d := by
  unfold ilDecimalTruncate
  rw [if_neg (not_not.2 hpt)]

/-- With decimals, the flags keep the sign, and the mantissa its whole part. -/
theorem truncate_spec (hpt : d.getPt ≠ 0) : (ilDecimalTruncate d).flags = mkFlags d.isNeg 0 ∧
    (ilDecimalTruncate d).mantissa = d.mantissa / 10 ^ d.getPt := by
  obtain ⟨hlength, hvalue⟩ := divByTens_spec d.getPt d.words
  unfold ilDecimalTruncate
  rw [if_pos hpt]
  refine ⟨flags_and_sign d, ?_⟩
  rw [mantissa, words_ofWords _ hlength, hvalue]
  rfl

theorem getPt_truncate (d : ILDecimal) : (ilDecimalTruncate d).getPt = 0 := by
  by_cases hpt : d.getPt = 0
  · rw [truncate_of_getPt_eq hpt, hpt]
  · have hflags := (truncate_spec hpt).1
    have hzero := getPt_mkFlags d.isNeg (Nat.zero_le 28) 0 0 0
    unfold getPt at hzero ⊢
    rwa [hflags]

theorem isNeg_truncate (d : ILDecimal) : (ilDecimalTruncate d).isNeg = d.isNeg := by
  by_cases hpt : d.getPt = 0
  · rw [truncate_of_getPt_eq hpt]
  · have hflags := (truncate_spec hpt).1
    have hneg := isNeg_mkFlags d.isNeg (Nat.zero_le 28) 0 0 0
    unfold isNeg at hneg ⊢
    rwa [hflags]

theorem canonical_truncate (hd : Canonical d) :
    Canonical (ilDecimalTruncate d) ↔ ¬(d.isNeg = true ∧ d.mantissa < 10 ^ d.getPt) := by
  by_cases hpt : d.getPt = 0
  · rw [truncate_of_getPt_eq hpt, hpt, Nat.pow_zero]
    apply iff_of_true hd
    rintro ⟨hneg, hlt⟩
    have hflags := hd.zero (by omega)
    unfold isNeg at hneg
    rw [hflags] at hneg
    exact absurd hneg (by decide)
  · obtain ⟨hflags, hmantissa⟩ := truncate_spec hpt
    have hpow : 0 < 10 ^ d.getPt := Nat.pow_pos (by omega)
    have hsigned : mkFlags true 0 ≠ 0 := by decide
    constructor
    · rintro hcanonical ⟨hneg, hlt⟩
      have hzero := hcanonical.zero (by rw [hmantissa, Nat.div_eq_of_lt hlt])
      rw [hflags, hneg] at hzero
      exact hsigned hzero
    · intro hkeeps
      apply Canonical.mk
      · rw [hflags, isNeg_truncate, getPt_truncate]
      · rw [getPt_truncate]
        omega
      · rw [getPt_truncate]
        omega
      · intro hzero
        rw [hmantissa, Nat.div_eq_zero_iff_lt hpow] at hzero
        have hpositive : d.isNeg = false := by
          by_contra h
          exact hkeeps ⟨Bool.eq_true_of_not_eq_false h, hzero⟩
        rw [hflags, hpositive]
        rfl

/-! ### Floor -/

/-- The subtraction of `one`, which is zero, does not fail. -/
theorem sub_one_ne_none (hpt : d.getPt = 0) : ilDecimalSub d ⟨1, 0, 0, 0⟩ .down ≠ none := by
  obtain ⟨temp, negative, hsub, hsigned⟩ :=
    sub_signed (show d.getPt ≤ 28 by omega) (show (ILDecimal.mk 1 0 0 0).getPt ≤ 28 by decide) .down
  have hone : (ILDecimal.mk 1 0 0 0).toRat = 0 := by decide +kernel
  have habs : |d.toRat| = d.mantissa := by
    unfold toRat
    rw [abs_sign_mul _ (by positivity), hpt, pow_zero, div_one]
  rw [hone, sub_zero] at hsigned
  have hrounded := (normalize_rounded .down negative temp.1 temp.2 hsigned).2 (by
    rintro ⟨s, _, ⟨hmode, _⟩ | ⟨hmode, _⟩⟩
    · cases hmode
    · exact hmode rfl)
  rw [← hsub] at hrounded
  intro hnone
  rw [hnone] at hrounded
  apply hrounded 0 (Nat.zero_le 28)
  have hround : Rounding.round (rule .down) (d.mantissa : ℚ) = d.mantissa :=
    Rounding.round_natCast (rule_zero .down) d.mantissa
  unfold Fits
  rw [habs, pow_zero, mul_one, hround]
  exact mantissa_lt d

theorem canonical_floor (hd : Canonical d) : Canonical (ilDecimalFloor d) := by
  unfold ilDecimalFloor
  by_cases hneg : d.isNeg = true
  · rw [if_pos hneg]
    by_cases hpt : d.getPt = 0
    · rw [if_neg (not_not.2 hpt)]
      exact hd
    · rw [if_pos hpt]
      obtain ⟨result, hresult⟩ := Option.ne_none_iff_exists'.1 (sub_one_ne_none (getPt_truncate d))
      rw [hresult]
      exact canonical_sub hresult
  · rw [if_neg hneg, canonical_truncate hd]
    exact fun h => hneg h.1

/-! ### Rounding -/

theorem trimPlaces_spec (decpt : Nat) (ws : List ILUInt32) :
    (trimPlaces decpt ws).1.length = ws.length ∧ (trimPlaces decpt ws).2 ≤ decpt ∧
      (0 < (trimPlaces decpt ws).2 → value (trimPlaces decpt ws).1 % 10 ≠ 0) := by
  induction decpt generalizing ws with
  | zero => exact ⟨rfl, Nat.le_refl 0, nofun⟩
  | succ decpt ih =>
    unfold trimPlaces
    by_cases hdigit : (divByTen ws).2 = 0
    · obtain ⟨hlength, hle, hshortest⟩ := ih (divByTen ws).1
      rw [if_neg (not_not.2 hdigit)]
      exact ⟨hlength.trans (length_divByTen ws), by omega, hshortest⟩
    · rw [if_pos hdigit]
      refine ⟨rfl, Nat.le_refl _, ?_⟩
      intro _ hzero
      rw [← (value_divByTen ws).2] at hzero
      exact hdigit (BitVec.eq_of_toNat_eq hzero)

theorem canonical_buildRound (negative : Bool) {ws : List ILUInt32} (hlength : ws.length = 3)
    {decpt : Nat} (hdecpt : decpt ≤ 28) : Canonical (buildRound negative ws decpt) := by
  obtain ⟨htrimmed, hle, hshortest⟩ := trimPlaces_spec decpt ws
  have hwords := wordsZero_iff (ofWords 0 (trimPlaces decpt ws).1)
  rw [mantissa, words_ofWords 0 (htrimmed.trans hlength)] at hwords
  have hmantissa : (buildRound negative ws decpt).mantissa = value (trimPlaces decpt ws).1 :=
    congrArg value (words_ofWords 0 (htrimmed.trans hlength))
  by_cases hzero : value (trimPlaces decpt ws).1 = 0
  · have hflags : (buildRound negative ws decpt).flags = 0 := if_pos (hwords.2 hzero)
    have hneg : (buildRound negative ws decpt).isNeg = false := by
      unfold isNeg
      rw [hflags]
      decide
    have hpt : (buildRound negative ws decpt).getPt = 0 := by
      unfold getPt
      rw [hflags]
      decide
    apply Canonical.mk
    · rw [hflags, hneg, hpt]
      rfl
    · rw [hpt]
      omega
    · rw [hpt]
      omega
    · exact fun _ => hflags
  · have hflags : (buildRound negative ws decpt).flags =
        mkFlags negative (trimPlaces decpt ws).2 := if_neg fun h => hzero (hwords.1 h)
    have hneg : (buildRound negative ws decpt).isNeg = negative := by
      have hmk := isNeg_mkFlags negative (hle.trans hdecpt) 0 0 0
      unfold isNeg at hmk ⊢
      rwa [hflags]
    have hpt : (buildRound negative ws decpt).getPt = (trimPlaces decpt ws).2 := by
      have hmk := getPt_mkFlags negative (hle.trans hdecpt) 0 0 0
      unfold getPt at hmk ⊢
      rwa [hflags]
    apply Canonical.mk
    · rw [hflags, hneg, hpt]
    · rw [hpt]
      omega
    · rw [hpt, hmantissa]
      exact hshortest
    · intro h
      rw [hmantissa] at h
      exact absurd h hzero

theorem length_dropDigits (count : Nat) (ws : List ILUInt32) (remainder : ILUInt32) :
    (dropDigits count ws remainder).1.length = ws.length := by
  induction count generalizing ws remainder with
  | zero => rfl
  | succ count ih =>
    rw [dropDigits, ih, length_divByTen]

theorem canonical_round {value : ILDecimal} {places : Int} (hvalue : Canonical value)
    (h : ilDecimalRound value places roundMode = some d) : Canonical d := by
  unfold ilDecimalRound at h
  by_cases hearly : places < 0 ∨ (value.getPt : Int) ≤ places
  · rw [if_pos hearly] at h
    rwa [← Option.some.inj h]
  · rw [if_neg hearly] at h
    have hle := hvalue.le
    have hplaces : places.toNat ≤ 28 := by omega
    have hlength : (dropDigits (value.getPt - places.toNat) value.words 0).1.length = 3 :=
      length_dropDigits _ _ _
    dsimp only at h
    generalize dropDigits (value.getPt - places.toNat) value.words 0 = dropped at h hlength
    have hadded := (addOne_spec dropped.1).1.trans hlength
    split at h
    · split at h
      · split at h
        · cases h
        · rw [← Option.some.inj h]
          exact canonical_buildRound _ ((length_divByTen _).trans hadded) (by omega)
      · rw [← Option.some.inj h]
        exact canonical_buildRound _ hadded hplaces
    · rw [← Option.some.inj h]
      exact canonical_buildRound _ hlength hplaces

/-! ### Negation -/

theorem mkFlags_not (negative : Bool) {decpt : Nat} (hdecpt : decpt ≤ 28) :
    mkFlags negative decpt ^^^ 0x80000000 = mkFlags (!negative) decpt := by
  have hall : ∀ decpt ∈ List.range 29, ∀ negative,
      mkFlags negative decpt ^^^ 0x80000000 = mkFlags (!negative) decpt := by decide
  exact hall decpt (List.mem_range.2 (by omega)) negative

theorem canonical_neg (hd : Canonical d) : Canonical (ilDecimalNeg d) := by
  have hle := hd.le
  have hwords := wordsZero_iff d
  unfold ilDecimalNeg
  by_cases hne : d.high ≠ 0 ∨ d.middle ≠ 0 ∨ d.low ≠ 0
  · have hnonzero : d.mantissa ≠ 0 := by
      intro hzero
      have hall := of_decide_eq_true (hwords.2 hzero)
      tauto
    have hflags : d.flags ^^^ 0x80000000 = mkFlags (!d.isNeg) d.getPt := by
      conv_lhs => rw [hd.flags]
      exact mkFlags_not _ hle
    rw [if_pos hne, hflags]
    apply Canonical.mk
    · rw [isNeg_mkFlags _ hle, getPt_mkFlags _ hle]
    · rw [getPt_mkFlags _ hle]
      exact hle
    · rw [getPt_mkFlags _ hle]
      exact hd.shortest
    · exact fun hzero => absurd hzero hnonzero
  · rw [if_neg hne]
    exact hd

/-! ### Parsing -/

theorem scaleUp_nonneg {temp : List ILUInt32} {decimalPlaces : Int}
    {scaled : List ILUInt32 × Int} (h : scaleUp temp decimalPlaces = some scaled) :
    0 ≤ scaled.2 := by
  unfold scaleUp at h
  split at h
  · split at h
    · cases h
    · dsimp only at h
      split at h
      · cases h
      · rw [← Option.some.inj h]
  · rw [← Option.some.inj h]
    omega

theorem canonical_parseValue {negative : Bool} {str : List Char} {temp : List ILUInt32}
    {decimalPlaces : Nat} (h : parseValue negative str temp decimalPlaces roundMode = some d) :
    Canonical d := by
  unfold parseValue at h
  split at h
  · rw [← Option.some.inj h]
    exact canonical_zero
  · obtain ⟨scaled, hscaled, hnormal⟩ := Option.bind_eq_some_iff.1 h
    rw [← Int.toNat_of_nonneg (scaleUp_nonneg hscaled)] at hnormal
    exact canonical_normalize hnormal

theorem canonical_parse {str : List Char} (h : ilDecimalParse str roundMode = some d) :
    Canonical d := by
  obtain ⟨integral, _, hrest⟩ := Option.bind_eq_some_iff.1 h
  split at hrest
  · exact canonical_parseValue hrest
  · exact canonical_parseValue hrest

/-! ### Comparison -/

theorem cmpAbs_eq_zero (ha : a.getPt ≤ 28) (hb : b.getPt ≤ 28) {negative : Bool}
    (h : cmpAbs a b negative = 0) :
    a.scaledTo (max a.getPt b.getPt) = b.scaledTo (max a.getPt b.getPt) := by
  rw [cmpAbs_spec ha hb] at h
  split at h
  · cases negative <;> cases h
  · split at h
    · cases negative <;> cases h
    · omega

/-- Without zeros at the end, a scaled mantissa tells the scale. -/
theorem eq_of_scaledTo (hle : a.getPt ≤ b.getPt) (hb : Canonical b)
    (h : a.scaledTo b.getPt = b.scaledTo b.getPt) : a.getPt = b.getPt := by
  by_contra hne
  have hlt : a.getPt < b.getPt := Nat.lt_of_le_of_ne hle hne
  have hpow : 10 ^ (b.getPt - a.getPt) = 10 * 10 ^ (b.getPt - a.getPt - 1) := by
    rw [← Nat.pow_succ']
    congr 1
    omega
  apply hb.shortest (by omega)
  unfold scaledTo at h
  rw [Nat.sub_self, Nat.pow_zero, Nat.mul_one, hpow, Nat.mul_left_comm] at h
  omega

theorem eq_of_cmp_eq_zero (ha : Canonical a) (hb : Canonical b) (h : ilDecimalCmp a b = 0) :
    a = b := by
  unfold ilDecimalCmp at h
  have hneg : a.isNeg = b.isNeg := by
    cases hna : a.isNeg <;> cases hnb : b.isNeg <;> rw [hna, hnb] at h <;>
      first | rfl | cases h
  have habs : cmpAbs a b a.isNeg = 0 := by
    rw [hneg] at h ⊢
    simpa using h
  have hscaled := cmpAbs_eq_zero ha.le hb.le habs
  have hpt : a.getPt = b.getPt := by
    rcases Nat.le_total a.getPt b.getPt with hle | hle
    · rw [max_eq_right hle] at hscaled
      exact eq_of_scaledTo hle hb hscaled
    · rw [max_eq_left hle] at hscaled
      exact (eq_of_scaledTo hle ha hscaled.symm).symm
  have hmantissa : a.mantissa = b.mantissa := by
    unfold scaledTo at hscaled
    rwa [hpt, max_self, Nat.sub_self, Nat.pow_zero, Nat.mul_one, Nat.mul_one] at hscaled
  have hwords : a.words = b.words := eq_of_value_eq rfl hmantissa
  have hflags : a.flags = b.flags := by rw [ha.flags, hb.flags, hneg, hpt]
  obtain ⟨hhigh, hrest⟩ := List.cons.inj hwords
  obtain ⟨hmiddle, hlow⟩ := List.cons.inj hrest
  cases a
  cases b
  rw [ILDecimal.mk.injEq]
  exact ⟨hflags, hhigh, hmiddle, (List.cons.inj hlow).1⟩

/-! ### All operations -/

/-- The result of an operation is canonical unless it loses the sign, and the comparison of
canonical values is 0 on equal ones only. -/
theorem ilDecimal_canonical_iff (op : Op) (hoperands : ∀ d ∈ op.operands, Canonical d) :
    ((∀ d ∈ op.result, Canonical d) ↔ ¬op.LosesSign) ∧
    ∀ a b, Canonical a → Canonical b → ilDecimalCmp a b = 0 → a = b := by
  refine ⟨?_, fun a b => eq_of_cmp_eq_zero⟩
  cases op with
  | add a b roundMode => exact iff_of_true (fun _ h => canonical_add h) id
  | sub a b roundMode => exact iff_of_true (fun _ h => canonical_sub h) id
  | mul a b roundMode => exact iff_of_true (fun _ h => canonical_mul h) id
  | div a b roundMode =>
    have hb := hoperands b (List.mem_cons_of_mem a List.mem_cons_self)
    exact iff_of_true (fun _ h => canonical_div hb.le h) id
  | rem a b roundMode => exact iff_of_true (fun _ h => canonical_rem h) id
  | floor a =>
    have ha := hoperands a List.mem_cons_self
    refine iff_of_true ?_ id
    intro d h
    rw [← Option.some.inj h]
    exact canonical_floor ha
  | truncate a =>
    have ha := hoperands a List.mem_cons_self
    refine Iff.trans ?_ (canonical_truncate ha)
    constructor
    · exact fun h => h _ rfl
    · intro hcanonical d h
      rwa [← Option.some.inj h]
  | round a places roundMode =>
    have ha := hoperands a List.mem_cons_self
    exact iff_of_true (fun _ h => canonical_round ha h) id
  | neg a =>
    have ha := hoperands a List.mem_cons_self
    refine iff_of_true ?_ id
    intro d h
    rw [← Option.some.inj h]
    exact canonical_neg ha
  | parse str roundMode => exact iff_of_true (fun _ h => canonical_parse h) id

theorem ilDecimalTruncate_canonical_one : Canonical (ilDecimalTruncate ⟨0x80010000, 0, 0, 15⟩) := by
  have hcanonical : Canonical ⟨0x80010000, 0, 0, 15⟩ :=
    ⟨by decide, by decide, fun _ => by decide, fun h => absurd h (by decide)⟩
  refine (ilDecimal_canonical_iff (.truncate ⟨0x80010000, 0, 0, 15⟩) ?_).1.2 ?_ _ rfl
  · intro d hd
    rwa [List.mem_singleton.1 hd]
  · exact fun h => absurd h.2 (by decide)

/-- A half, truncated with its sign. -/
theorem ilDecimalTruncate_not_canonical :
    Canonical ⟨0x80010000, 0, 0, 5⟩ ∧ ¬Canonical (ilDecimalTruncate ⟨0x80010000, 0, 0, 5⟩) := by
  have hcanonical : Canonical ⟨0x80010000, 0, 0, 5⟩ :=
    ⟨by decide, by decide, fun _ => by decide, fun h => absurd h (by decide)⟩
  refine ⟨hcanonical, ?_⟩
  intro h
  have hzero := h.zero (by decide)
  exact absurd hzero (by decide)

end Pnet.Support.ILDecimal
