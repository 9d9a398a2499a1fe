import Pnet.Support.DecimalRound

/-! Sums, differences and products of decimals: each is one number that `Normalize` rounds. -/
namespace Pnet.Support.ILDecimal
open Pnet.Lib BigEndian Rounding

def sign (negative : Bool) : ℚ := if negative then -1 else 1

def toRat (d : ILDecimal) : ℚ := sign d.isNeg * (d.mantissa / 10 ^ d.getPt)

/-- The result is the number, rounded at the most places it fits with, if there are any. -/
def Rounded (roundMode : RoundMode) (x : ℚ) : Option ILDecimal → Prop
  | some d => ∃ s, IsGreatest {s | s ≤ 28 ∧ Fits roundMode |x| s} s ∧
      d.toRat = sign (x < 0) * (Rounding.round (rule roundMode) (|x| * 10 ^ s) / 10 ^ s)
  | none => ∀ s ≤ 28, ¬Fits roundMode |x| s

variable {roundMode : RoundMode} {x : ℚ}

/-! ### The flags -/

theorem getPt_mkFlags (negative : Bool) {decpt : Nat} (hdecpt : decpt ≤ 28) (high middle low : ILUInt32) :
    (ILDecimal.mk (mkFlags negative decpt) high middle low).getPt = decpt := by
  have hall : ∀ decpt ∈ List.range 29, ∀ negative,
      (((mkFlags negative decpt) >>> 16) &&& 0xFF).toNat = decpt := by decide
  exact hall decpt (List.mem_range.2 (by omega)) negative

theorem isNeg_mkFlags (negative : Bool) {decpt : Nat} (hdecpt : decpt ≤ 28)
    (high middle low : ILUInt32) :
    (ILDecimal.mk (mkFlags negative decpt) high middle low).isNeg = negative := by
  have hall : ∀ decpt ∈ List.range 29, ∀ negative,
      decide (mkFlags negative decpt &&& 0x80000000 ≠ 0) = negative := by decide
  exact hall decpt (List.mem_range.2 (by omega)) negative

theorem words_ofWords (flags : ILUInt32) {out : List ILUInt32} (hlength : out.length = 3) :
    (ofWords flags out).words = out := by
  match out, hlength with
  | [high, middle, low], _ => rfl

theorem wordsZero_iff (d : ILDecimal) : d.wordsZero = true ↔ d.mantissa = 0 := by
  unfold wordsZero mantissa words
  simp only [decide_eq_true_eq, value_cons, value_nil, List.length_cons, List.length_nil,
    ← BitVec.toNat_inj]
  show _ ∧ _ ∧ _ ↔ _
  constructor
  · rintro ⟨hhigh, hmiddle, hlow⟩
    rw [hhigh, hmiddle, hlow]
    rfl
  · intro h
    refine ⟨?_, ?_, ?_⟩ <;> simp <;> omega

/-! ### The decimal that is built -/

/-- What `Normalize` leaves: three words, a useful decimal point and no zeros at the end. -/
structure Normal (normalized : List ILUInt32 × Int) : Prop where
  length : normalized.1.length = 3
  nonneg : 0 ≤ normalized.2
  le : normalized.2 ≤ 28
  shortest : 0 < normalized.2 → value normalized.1 % 10 ≠ 0

theorem normalize_normal {ws : List ILUInt32} {d : Nat} {normalized : List ILUInt32 × Int}
    (h : normalize ws d roundMode = some normalized) : Normal normalized := by
  obtain ⟨k, hreduces, hfit, hover⟩ := normalize_spec ws d roundMode
  by_cases hlt : value ws / 10 ^ k +
      (roundsDigit roundMode (droppedDigit (value ws) k) (value ws / 10 ^ k)).toNat < 2 ^ 96
  · obtain ⟨out, e, hout, htrimmed⟩ := hfit hlt
    obtain rfl := Option.some.inj (h.symm.trans hout)
    have huseful := hreduces.useful
    have hle := htrimmed.le
    apply Normal.mk htrimmed.length
    · exact Int.natCast_nonneg e
    · show (e : Int) ≤ 28
      omega
    · intro hpos
      exact htrimmed.shortest (Int.natCast_pos.1 hpos)
  · rw [hover (not_lt.1 hlt)] at h
    split at h
    · cases h
    · obtain rfl := Option.some.inj h
      exact ⟨rfl, Int.le_refl 0, by decide, nofun⟩

section

variable {normalized : List ILUInt32 × Int} (hnormal : Normal normalized) (negative : Bool)
include hnormal

theorem mantissa_build : (build negative normalized).mantissa = value normalized.1 :=
  congrArg value (words_ofWords 0 hnormal.length)

theorem getPt_build : (build negative normalized).getPt = normalized.2.toNat := by
  apply getPt_mkFlags
  have hle := hnormal.le
  omega

theorem isNeg_build :
    (build negative normalized).isNeg = (negative && decide (value normalized.1 ≠ 0)) := by
  have hle := hnormal.le
  have hzero := wordsZero_iff (ofWords 0 normalized.1)
  rw [mantissa, words_ofWords 0 hnormal.length] at hzero
  unfold build
  rw [isNeg_mkFlags _ (by omega)]
  by_cases h : value normalized.1 = 0
  · rw [hzero.2 h, h]
    simp
  · rw [Bool.eq_false_iff.2 fun hwords => h (hzero.1 hwords)]
    simp [h]

theorem toRat_build : (build negative normalized).toRat = sign negative * magnitude normalized := by
  unfold toRat magnitude
  rw [mantissa_build hnormal, getPt_build hnormal, isNeg_build hnormal]
  by_cases h : value normalized.1 = 0
  · rw [h]
    simp
  · simp [h]

end

theorem sign_mul_abs (x : ℚ) : sign (x < 0) * |x| = x := by
  unfold sign
  by_cases h : x < 0
  · simp [h, abs_of_neg h]
  · simp [h, abs_of_nonneg (not_lt.1 h)]

theorem abs_sign_mul (negative : Bool) {y : ℚ} (hy : 0 ≤ y) : |sign negative * y| = y := by
  unfold sign
  cases negative with
  | false => simp [abs_of_nonneg hy]
  | true => simp [abs_of_nonneg hy]

/-- The sign that the source computes is the sign of the number, unless this is zero. -/
theorem sign_eq {negative : Bool} {y : ℚ} (hy : 0 ≤ y) (hne : y ≠ 0) :
    sign (sign negative * y < 0) = sign negative := by
  have hpos : 0 < y := lt_of_le_of_ne hy (Ne.symm hne)
  unfold sign
  cases negative with
  | false => simp [not_lt.2 hy]
  | true => simp [hpos]

/-- A number is rounded correctly when its magnitude is. -/
theorem rounded_iff (negative : Bool) {y : ℚ} (hy : 0 ≤ y) (result : Option (List ILUInt32 × Int))
    (hnormal : ∀ normalized ∈ result, Normal normalized) :
    Rounded roundMode (sign negative * y) (result.map (build negative)) ↔
      RoundsTo roundMode y (result.map magnitude) := by
  cases result with
  | none =>
    show (∀ s ≤ 28, ¬Fits roundMode |sign negative * y| s) ↔ ∀ s ≤ 28, ¬Fits roundMode y s
    rw [abs_sign_mul negative hy]
  | some normalized =>
    show (∃ s, _ ∧ (build negative normalized).toRat = _) ↔ ∃ s, _ ∧ magnitude normalized = _
    rw [abs_sign_mul negative hy, toRat_build (hnormal normalized rfl)]
    have hsign : ∀ b, sign b ≠ 0 := by
      intro b
      cases b with
      | false => exact one_ne_zero
      | true => exact neg_ne_zero.2 one_ne_zero
    apply exists_congr
    intro s
    apply and_congr_right
    intro _
    by_cases hzero : y = 0
    · have hround : Rounding.round (rule roundMode) (y * 10 ^ s) = 0 := by
        rw [hzero, zero_mul]
        exact round_natCast (rule_zero roundMode) 0
      rw [hround, Nat.cast_zero, zero_div, mul_zero, mul_eq_zero]
      exact or_iff_right (hsign negative)
    · rw [sign_eq hy hzero]
      exact mul_right_inj' (hsign negative)

/-- What an operation gives to `Normalize` decides whether its result is correct. -/
theorem normalize_rounded (roundMode : RoundMode) (negative : Bool) (ws : List ILUInt32) (d : Nat)
    (hx : sign negative * (value ws / 10 ^ d) = x) :
    Rounded roundMode x ((normalize ws d roundMode).map (build negative)) ↔
      ¬Unlucky roundMode |x| := by
  have hy : (0 : ℚ) ≤ value ws / 10 ^ d := by positivity
  have hwhole : (value ws : ℚ) / 10 ^ d * 10 ^ d = value ws := by field_simp
  rw [← hx, abs_sign_mul negative hy, rounded_iff negative hy]
  · apply normalize_roundsTo hy
    · rw [hwhole, Nat.floor_natCast]
    · exact fun _ => hwhole
  · exact fun normalized h => normalize_normal h

/-! ### Sums and differences -/

variable {a b : ILDecimal}

/-- The magnitude of a decimal. -/
def absRat (d : ILDecimal) : ℚ := d.mantissa / 10 ^ d.getPt

/-- The number that an operation gives to `Normalize`. -/
def signed (temp : List ILUInt32 × Nat) (negative : Bool) : ℚ :=
  sign negative * (value temp.1 / 10 ^ temp.2)

theorem scaledTo_div (d : ILDecimal) {m : Nat} (hm : d.getPt ≤ m) :
    (d.scaledTo m : ℚ) / 10 ^ m = d.absRat := by
  have hpow : (10 : ℚ) ^ m = 10 ^ (m - d.getPt) * 10 ^ d.getPt := by
    rw [← pow_add, Nat.sub_add_cancel hm]
  unfold absRat scaledTo
  rw [hpow]
  push_cast
  field_simp

section

variable (ha : a.getPt ≤ 28) (hb : b.getPt ≤ 28)
include ha hb

theorem signed_addValues (negative : Bool) :
    signed (addValues a b) negative = sign negative * (a.absRat + b.absRat) := by
  obtain ⟨hpt, hvalue⟩ := addValues_spec ha hb
  unfold signed
  rw [hpt, hvalue, Nat.cast_add, add_div, scaledTo_div a (le_max_left ..),
    scaledTo_div b (le_max_right ..)]

theorem signed_subValues (negative : Bool)
    (hle : b.scaledTo (max a.getPt b.getPt) ≤ a.scaledTo (max a.getPt b.getPt)) :
    signed (subValues a b) negative = sign negative * (a.absRat - b.absRat) := by
  obtain ⟨hpt, hvalue⟩ := subValues_spec ha hb hle
  unfold signed
  rw [hpt, hvalue, Nat.cast_sub hle, sub_div, scaledTo_div a (le_max_left ..),
    scaledTo_div b (le_max_right ..)]

theorem cmpAbs_nonneg : cmpAbs a b false ≥ 0 ↔
    b.scaledTo (max a.getPt b.getPt) ≤ a.scaledTo (max a.getPt b.getPt) := by
  rw [cmpAbs_spec ha hb]
  simp only [Bool.false_eq_true, ↓reduceIte]
  split
  · omega
  · split
    · omega
    · omega

theorem cmpAbs_nonpos : cmpAbs a b false ≤ 0 ↔
    a.scaledTo (max a.getPt b.getPt) ≤ b.scaledTo (max a.getPt b.getPt) := by
  rw [cmpAbs_spec ha hb]
  simp only [Bool.false_eq_true, ↓reduceIte]
  split
  · omega
  · split
    · omega
    · omega

/-- The larger magnitude less the smaller, with the sign of the larger. -/
theorem signed_difference :
    (cmpAbs a b false ≥ 0 → signed (subValues a b) true = b.absRat - a.absRat) ∧
    (¬cmpAbs a b false ≥ 0 → signed (subValues b a) false = b.absRat - a.absRat) ∧
    (cmpAbs a b false ≤ 0 → signed (subValues b a) true = a.absRat - b.absRat) ∧
    (¬cmpAbs a b false ≤ 0 → signed (subValues a b) false = a.absRat - b.absRat) := by
  have hmax := max_comm a.getPt b.getPt
  have hnonneg := cmpAbs_nonneg ha hb
  have hnonpos := cmpAbs_nonpos ha hb
  have htrue : sign true = -1 := rfl
  have hfalse : sign false = 1 := rfl
  refine ⟨?_, ?_, ?_, ?_⟩
  · intro h
    rw [signed_subValues ha hb true (hnonneg.1 h), htrue]
    ring
  · intro h
    have hle := Nat.le_of_not_le fun hle => h (hnonneg.2 hle)
    rw [hmax] at hle
    rw [signed_subValues hb ha false hle, hfalse, one_mul]
  · intro h
    have hle := hnonpos.1 h
    rw [hmax] at hle
    rw [signed_subValues hb ha true hle, htrue]
    ring
  · intro h
    have hle := Nat.le_of_not_le fun hle => h (hnonpos.2 hle)
    rw [signed_subValues ha hb false hle, hfalse, one_mul]

theorem add_signed (roundMode : RoundMode) : ∃ temp negative, ilDecimalAdd a b roundMode =
    (normalize temp.1 temp.2 roundMode).map (build negative) ∧
      signed temp negative = a.toRat + b.toRat := by
  have hadd := signed_addValues ha hb
  obtain ⟨hge, hlt, hle, hgt⟩ := signed_difference ha hb
  have ha' : a.toRat = sign a.isNeg * a.absRat := rfl
  have hb' : b.toRat = sign b.isNeg * b.absRat := rfl
  unfold ilDecimalAdd
  cases hna : a.isNeg with
  | false =>
    cases hnb : b.isNeg with
    | false =>
      refine ⟨addValues a b, false, rfl, ?_⟩
      rw [hadd, ha', hb', hna, hnb, mul_add]
    | true =>
      have htarget : a.toRat + b.toRat = a.absRat - b.absRat := by
        rw [ha', hb', hna, hnb]
        simp [sign, sub_eq_add_neg]
      by_cases hcmp : cmpAbs a b false ≤ 0
      · exact ⟨subValues b a, true, by simp [hcmp], (hle hcmp).trans htarget.symm⟩
      · exact ⟨subValues a b, false, by simp [hcmp], (hgt hcmp).trans htarget.symm⟩
  | true =>
    cases hnb : b.isNeg with
    | true =>
      refine ⟨addValues a b, true, rfl, ?_⟩
      rw [hadd, ha', hb', hna, hnb, mul_add]
    | false =>
      have htarget : a.toRat + b.toRat = b.absRat - a.absRat := by
        rw [ha', hb', hna, hnb]
        simp [sign, sub_eq_add_neg, add_comm]
      by_cases hcmp : cmpAbs a b false ≥ 0
      · exact ⟨subValues a b, true, by simp [hcmp], (hge hcmp).trans htarget.symm⟩
      · exact ⟨subValues b a, false, by simp [hcmp], (hlt hcmp).trans htarget.symm⟩

theorem sub_signed (roundMode : RoundMode) : ∃ temp negative, ilDecimalSub a b roundMode =
    (normalize temp.1 temp.2 roundMode).map (build negative) ∧
      signed temp negative = a.toRat - b.toRat := by
  have hadd := signed_addValues ha hb
  obtain ⟨hge, hlt, hle, hgt⟩ := signed_difference ha hb
  have ha' : a.toRat = sign a.isNeg * a.absRat := rfl
  have hb' : b.toRat = sign b.isNeg * b.absRat := rfl
  unfold ilDecimalSub
  cases hna : a.isNeg with
  | false =>
    cases hnb : b.isNeg with
    | true =>
      refine ⟨addValues a b, false, rfl, ?_⟩
      rw [hadd, ha', hb', hna, hnb]
      simp [sign]
    | false =>
      have htarget : a.toRat - b.toRat = a.absRat - b.absRat := by
        rw [ha', hb', hna, hnb]
        simp [sign]
      by_cases hcmp : cmpAbs a b false ≤ 0
      · exact ⟨subValues b a, true, by simp [hcmp], (hle hcmp).trans htarget.symm⟩
      · exact ⟨subValues a b, false, by simp [hcmp], (hgt hcmp).trans htarget.symm⟩
  | true =>
    cases hnb : b.isNeg with
    | false =>
      refine ⟨addValues a b, true, rfl, ?_⟩
      rw [hadd, ha', hb', hna, hnb]
      simp [sign, sub_eq_add_neg, add_comm]
    | true =>
      have htarget : a.toRat - b.toRat = b.absRat - a.absRat := by
        rw [ha', hb', hna, hnb]
        simp [sign, sub_eq_add_neg, add_comm]
      by_cases hcmp : cmpAbs a b false ≥ 0
      · exact ⟨subValues a b, true, by simp [hcmp], (hge hcmp).trans htarget.symm⟩
      · exact ⟨subValues b a, false, by simp [hcmp], (hlt hcmp).trans htarget.symm⟩

end

theorem mul_signed (a b : ILDecimal) (roundMode : RoundMode) : ∃ temp negative, ilDecimalMul a b roundMode =
    (normalize temp.1 temp.2 roundMode).map (build negative) ∧
      signed temp negative = a.toRat * b.toRat := by
  refine ⟨(mulValues a b, a.getPt + b.getPt), a.isNeg ^^ b.isNeg, rfl, ?_⟩
  have hsign : sign (a.isNeg ^^ b.isNeg) = sign a.isNeg * sign b.isNeg := by
    cases a.isNeg <;> cases b.isNeg <;> simp [sign]
  unfold signed toRat
  rw [mulValues_spec, hsign, pow_add]
  push_cast
  field_simp

/-! ### Correct rounding -/

/-- Sums, differences and products are rounded correctly but for the unlucky ones. -/
theorem ilDecimal_arith_rounded_iff {a b : ILDecimal} (ha : a.getPt ≤ 28) (hb : b.getPt ≤ 28)
    (roundMode : RoundMode) :
    (Rounded roundMode (a.toRat + b.toRat) (ilDecimalAdd a b roundMode) ↔
      ¬Unlucky roundMode |a.toRat + b.toRat|) ∧
    (Rounded roundMode (a.toRat - b.toRat) (ilDecimalSub a b roundMode) ↔
      ¬Unlucky roundMode |a.toRat - b.toRat|) ∧
    (Rounded roundMode (a.toRat * b.toRat) (ilDecimalMul a b roundMode) ↔
      ¬Unlucky roundMode |a.toRat * b.toRat|) := by
  obtain ⟨sum, hsum, hadd, hsum'⟩ := add_signed ha hb roundMode
  obtain ⟨difference, hdifference, hsub, hdifference'⟩ := sub_signed ha hb roundMode
  obtain ⟨product, hproduct, hmul, hproduct'⟩ := mul_signed a b roundMode
  rw [hadd, hsub, hmul]
  exact ⟨normalize_rounded roundMode hsum _ _ hsum',
    normalize_rounded roundMode hdifference _ _ hdifference',
    normalize_rounded roundMode hproduct _ _ hproduct'⟩

theorem ilDecimal_arith_rounded_quarters :
    Rounded .halfEven ((ILDecimal.mk 0x00010000 0 0 15).toRat + (ILDecimal.mk 0x00020000 0 0 125).toRat)
      (ilDecimalAdd ⟨0x00010000, 0, 0, 15⟩ ⟨0x00020000, 0, 0, 125⟩ .halfEven) := by
  apply (ilDecimal_arith_rounded_iff (by decide) (by decide) .halfEven).1.2
  have hsum : (ILDecimal.mk 0x00010000 0 0 15).toRat + (ILDecimal.mk 0x00020000 0 0 125).toRat =
      275 / 100 := by decide +kernel
  rw [hsum, abs_of_nonneg (by norm_num)]
  exact (exact_roundsTo .halfEven (d := 2) (v := 275) (by norm_num) (by omega) (by norm_num) (by norm_num)).2

/-- The largest mantissa with one place, rounded up, becomes zero. -/
theorem ilDecimalAdd_not_rounded : ¬Rounded .halfUp
    ((ILDecimal.mk 0x00010000 0xFFFFFFFF 0xFFFFFFFF 0xFFFFFFFF).toRat +
      (ILDecimal.mk 0x00020000 0 0 5).toRat)
    (ilDecimalAdd ⟨0x00010000, 0xFFFFFFFF, 0xFFFFFFFF, 0xFFFFFFFF⟩ ⟨0x00020000, 0, 0, 5⟩ .halfUp) := by
  have hsum : (ILDecimal.mk 0x00010000 0xFFFFFFFF 0xFFFFFFFF 0xFFFFFFFF).toRat +
      (ILDecimal.mk 0x00020000 0 0 5).toRat = 792281625142643375935439503355 / 100 := by
    decide +kernel
  have hresult : ilDecimalAdd ⟨0x00010000, 0xFFFFFFFF, 0xFFFFFFFF, 0xFFFFFFFF⟩
      ⟨0x00020000, 0, 0, 5⟩ .halfUp = some ⟨0, 0, 0, 0⟩ := by decide +kernel
  have hzero : (ILDecimal.mk 0 0 0 0).toRat = 0 := by decide +kernel
  rw [hsum, hresult]
  rintro ⟨s, _, heq⟩
  rw [hzero, abs_of_nonneg (by norm_num)] at heq
  have hmono := floor_places_mono (x := 792281625142643375935439503355 / 100) (by norm_num)
    (Nat.zero_le s)
  have hle := floor_le_round (rule .halfUp) (792281625142643375935439503355 / 100 * 10 ^ s)
  have hone : 1 ≤ ⌊(792281625142643375935439503355 / 100 : ℚ) * 10 ^ 0⌋₊ :=
    Nat.le_floor (by norm_num)
  have hround : (0 : ℚ) < Rounding.round (rule .halfUp)
      (792281625142643375935439503355 / 100 * 10 ^ s) := by
    exact_mod_cast hone.trans (hmono.trans hle)
  have hpos : (0 : ℚ) < 10 ^ s := by positivity
  have hsign : sign (792281625142643375935439503355 / 100 < (0 : ℚ)) = 1 := by
    norm_num [sign]
  rw [hsign, one_mul] at heq
  exact absurd heq (ne_of_lt (div_pos hround hpos))

end Pnet.Support.ILDecimal
