import Pnet.Support.DecimalDiv

/-! `ILDecimalRound`: a decimal at a number of places. Each digit that it drops is forgotten for
the next one, so that the last one alone decides. -/
namespace Pnet.Support.ILDecimal
open Pnet.Lib BigEndian Rounding

/-- The number at this many places, rounded on its magnitude. -/
def roundAt (roundMode : RoundMode) (x : ℚ) (places : Nat) : ℚ :=
  sign (x < 0) * (Rounding.round (rule roundMode) (|x| * 10 ^ places) / 10 ^ places)

/-- The decimal has no more than this many places. -/
def Multiple (x : ℚ) (places : Nat) : Prop := ∃ m : Int, x * 10 ^ places = m

/-- The decimal is rounded, and left unchanged when it has no more places. -/
def RoundsAt (roundMode : RoundMode) (d : ILDecimal) (places : Nat) : Prop :=
  ∃ result, ilDecimalRound d places roundMode = some result ∧
    result.toRat = roundAt roundMode d.toRat places ∧
    (Multiple d.toRat places → result.toRat = d.toRat ∧ (Canonical d → result = d))

/-- A fraction of more than a half that starts with a five, after an even digit. -/
def FalseTie (roundMode : RoundMode) (x : ℚ) (places : Nat) : Prop :=
  roundMode = .halfEven ∧ ⌊|x| * 10 ^ places⌋₊ % 2 = 0 ∧ 1 / 2 < frac (|x| * 10 ^ places) ∧
    frac (|x| * 10 ^ places) < 6 / 10

variable {roundMode : RoundMode} {d : ILDecimal} {places : Nat}

/-! ### The digits that are dropped -/

theorem dropDigits_spec (count : Nat) (ws : List ILUInt32) (remainder : ILUInt32) :
    value (dropDigits count ws remainder).1 = value ws / 10 ^ count ∧
      (0 < count → (dropDigits count ws remainder).2.toNat = droppedDigit (value ws) count) := by
  induction count generalizing ws remainder with
  | zero => exact ⟨(Nat.div_one _).symm, fun h => absurd h (Nat.lt_irrefl 0)⟩
  | succ count ih =>
    obtain ⟨hquotient, hremainder⟩ := value_divByTen ws
    obtain ⟨hvalue, hdigit⟩ := ih (divByTen ws).1 (divByTen ws).2
    rw [dropDigits]
    constructor
    · rw [hvalue, hquotient, Nat.div_div_eq_div_mul, Nat.pow_succ']
    · intro _
      rw [droppedDigit, if_neg (Nat.succ_ne_zero count), Nat.add_sub_cancel]
      cases count with
      | zero => rw [dropDigits, hremainder, Nat.pow_zero, Nat.div_one]
      | succ count =>
        rw [hdigit (Nat.succ_pos count), hquotient, droppedDigit, if_neg (Nat.succ_ne_zero count),
          Nat.add_sub_cancel, Nat.div_div_eq_div_mul, Nat.pow_succ']

/-- The zeros that are removed count for nothing. -/
theorem value_trimPlaces (decpt : Nat) (ws : List ILUInt32) :
    value (trimPlaces decpt ws).1 * 10 ^ (decpt - (trimPlaces decpt ws).2) = value ws := by
  induction decpt generalizing ws with
  | zero => exact Nat.mul_one _
  | succ decpt ih =>
    obtain ⟨hquotient, hremainder⟩ := value_divByTen ws
    unfold trimPlaces
    by_cases hdigit : (divByTen ws).2 = 0
    · have hle := (trimPlaces_spec decpt (divByTen ws).1).2.1
      have hten : value ws % 10 = 0 := by
        rw [← hremainder, hdigit]
        rfl
      rw [if_neg (not_not.2 hdigit), Nat.succ_sub hle, Nat.pow_succ, ← Nat.mul_assoc, ih, hquotient]
      omega
    · rw [if_pos hdigit, Nat.sub_self, Nat.pow_zero, Nat.mul_one]

theorem toRat_buildRound (negative : Bool) {ws : List ILUInt32} (hlength : ws.length = 3)
    (hplaces : places ≤ 28) :
    (buildRound negative ws places).toRat = sign negative * (value ws / 10 ^ places) := by
  obtain ⟨htrimmed, hle, _⟩ := trimPlaces_spec places ws
  have hvalue := value_trimPlaces places ws
  have hwords := wordsZero_iff (ofWords 0 (trimPlaces places ws).1)
  rw [mantissa, words_ofWords 0 (htrimmed.trans hlength)] at hwords
  have hmantissa : (buildRound negative ws places).mantissa = value (trimPlaces places ws).1 :=
    congrArg value (words_ofWords 0 (htrimmed.trans hlength))
  by_cases hzero : value (trimPlaces places ws).1 = 0
  · rw [hzero, Nat.zero_mul] at hvalue
    rw [toRat, hmantissa, hzero, ← hvalue, Nat.cast_zero, zero_div, zero_div, mul_zero, mul_zero]
  · have hflags : (buildRound negative ws places).flags =
        mkFlags negative (trimPlaces places ws).2 := if_neg fun h => hzero (hwords.1 h)
    have hneg : (buildRound negative ws places).isNeg = negative := by
      have hmk := isNeg_mkFlags negative (hle.trans hplaces) 0 0 0
      unfold isNeg at hmk ⊢
      rwa [hflags]
    have hpt : (buildRound negative ws places).getPt = (trimPlaces places ws).2 := by
      have hmk := getPt_mkFlags negative (hle.trans hplaces) 0 0 0
      unfold getPt at hmk ⊢
      rwa [hflags]
    have hpow : (10 : ℚ) ^ places = 10 ^ (places - (trimPlaces places ws).2) *
        10 ^ (trimPlaces places ws).2 := by
      rw [← pow_add, Nat.sub_add_cancel hle]
    rw [toRat, hneg, hpt, hmantissa, ← hvalue, hpow]
    push_cast
    field_simp

/-- A magnitude below 2^95 has no carry out of its words. -/
theorem addOne_dropped {ws : List ILUInt32} (hlength : ws.length = 3) (hlt : value ws < 2 ^ 95) :
    (addOne ws).2 = false ∧ value (addOne ws).1 = value ws + 1 ∧ (addOne ws).1.length = 3 := by
  obtain ⟨hadded, heq⟩ := addOne_spec ws
  rw [hlength] at heq hadded
  cases hcarry : (addOne ws).2 with
  | false =>
    rw [hcarry, Bool.toNat_false] at heq
    exact ⟨rfl, by omega, hadded⟩
  | true =>
    rw [hcarry, Bool.toNat_true] at heq
    omega

/-- Where digits are dropped, the last of them decides. -/
theorem ilDecimalRound_dropped (hplaces : places ≤ 28) (hlt : places < d.getPt)
    (roundMode : RoundMode) : ∃ result, ilDecimalRound d places roundMode = some result ∧
      result.toRat = sign d.isNeg * (((d.mantissa / 10 ^ (d.getPt - places) +
        (roundsDigit roundMode (droppedDigit d.mantissa (d.getPt - places))
          (d.mantissa / 10 ^ (d.getPt - places))).toNat : Nat) : ℚ) / 10 ^ places) := by
  have hpos : 0 < d.getPt - places := by omega
  obtain ⟨hvalue, hdigit⟩ := dropDigits_spec (d.getPt - places) d.words 0
  have hlength : (dropDigits (d.getPt - places) d.words 0).1.length = 3 := length_dropDigits _ _ _
  have hup := roundsUp_spec roundMode (dropDigits (d.getPt - places) d.words 0).2
    (dropDigits (d.getPt - places) d.words 0).1
  have hsmall : d.mantissa / 10 ^ (d.getPt - places) < 2 ^ 95 := by
    have hten : 10 ^ 1 ≤ 10 ^ (d.getPt - places) := Nat.pow_le_pow_right (by omega) hpos
    have hle : d.mantissa / 10 ^ (d.getPt - places) ≤ d.mantissa / 10 ^ 1 :=
      Nat.div_le_div (Nat.le_refl _) hten (by omega)
    have hmantissa := mantissa_lt d
    omega
  rw [hdigit hpos, hvalue] at hup
  unfold ilDecimalRound
  rw [if_neg (by omega), Int.toNat_natCast]
  dsimp only
  rw [hup]
  change _ = d.mantissa / _ at hvalue
  change ∃ result, (if roundsDigit roundMode (droppedDigit d.mantissa _) (d.mantissa / _) = true
    then _ else _) = _ ∧ _
  cases roundsDigit roundMode (droppedDigit d.mantissa (d.getPt - places))
      (d.mantissa / 10 ^ (d.getPt - places)) with
  | false =>
    refine ⟨_, if_neg Bool.false_ne_true, ?_⟩
    rw [toRat_buildRound _ hlength hplaces, hvalue, Bool.toNat_false, Nat.add_zero]
  | true =>
    obtain ⟨hcarry, hsum, hadded⟩ := addOne_dropped hlength (hvalue ▸ hsmall)
    refine ⟨_, (if_pos rfl).trans (if_neg (by rw [hcarry]; exact Bool.false_ne_true)), ?_⟩
    rw [toRat_buildRound _ hadded hplaces, hsum, hvalue, Bool.toNat_true]

/-! ### The magnitude -/

theorem absRat_places (d : ILDecimal) : absRat d * 10 ^ d.getPt = d.mantissa := by
  unfold absRat
  field_simp

theorem sign_ne_zero (negative : Bool) : sign negative ≠ 0 := by
  cases negative with
  | false => exact one_ne_zero
  | true => exact neg_ne_zero.2 one_ne_zero

/-- A magnitude with the sign of the decimal is the rounded number exactly when the magnitudes
are the same. -/
theorem eq_roundAt_iff {n : Nat} (hzero : d.mantissa = 0 → n = 0) :
    sign d.isNeg * ((n : ℚ) / 10 ^ places) = roundAt roundMode d.toRat places ↔
      n = Rounding.round (rule roundMode) (absRat d * 10 ^ places) := by
  have hpos : (0 : ℚ) < 10 ^ places := by positivity
  unfold roundAt
  rw [abs_toRat]
  by_cases hmantissa : d.mantissa = 0
  · have habs : absRat d = 0 := by rw [absRat, hmantissa, Nat.cast_zero, zero_div]
    have hround : Rounding.round (rule roundMode) (absRat d * 10 ^ places) = 0 := by
      rw [habs, zero_mul]
      exact round_natCast (rule_zero roundMode) 0
    rw [hround, hzero hmantissa, Nat.cast_zero, zero_div, mul_zero, mul_zero]
    exact iff_of_true rfl rfl
  · have habs : absRat d ≠ 0 := by
      intro h
      have hplaces := absRat_places d
      rw [h, zero_mul] at hplaces
      exact hmantissa (Nat.cast_eq_zero.mp hplaces.symm)
    have hsign : sign (d.toRat < 0) = sign d.isNeg := sign_eq (absRat_nonneg d) habs
    rw [hsign, mul_right_inj' (sign_ne_zero _), div_left_inj' (ne_of_gt hpos), Nat.cast_inj]

/-- A number without more places is rounded to itself. -/
theorem roundAt_of_whole (roundMode : RoundMode) {x : ℚ} {n : Nat} (h : |x| * 10 ^ places = n) :
    roundAt roundMode x places = x ∧ ¬FalseTie roundMode x places := by
  constructor
  · have hround : Rounding.round (rule roundMode) (n : ℚ) = n :=
      round_natCast (rule_zero roundMode) n
    rw [roundAt, h, hround, ← h, mul_div_assoc, div_self (by positivity), mul_one]
    exact sign_mul_abs x
  · rintro ⟨_, _, hgt, _⟩
    rw [h, frac_natCast] at hgt
    norm_num at hgt

theorem Multiple.whole {x : ℚ} (h : Multiple x places) : ∃ n : Nat, |x| * 10 ^ places = n := by
  obtain ⟨m, hm⟩ := h
  refine ⟨m.natAbs, ?_⟩
  have hpow : (10 : ℚ) ^ places = |10 ^ places| := (abs_of_pos (by positivity)).symm
  rw [hpow, ← abs_mul, hm, Nat.cast_natAbs, Int.cast_abs]

/-- In a canonical decimal every place counts. -/
theorem Canonical.le_of_multiple (h : Canonical d) (hmultiple : Multiple d.toRat places) :
    d.getPt ≤ places := by
  by_contra hlt
  obtain ⟨n, hn⟩ := hmultiple.whole
  have hsplit : d.getPt = places + 1 + (d.getPt - places - 1) := by omega
  have hmantissa : (d.mantissa : ℚ) = ((n * 10 ^ (d.getPt - places - 1) * 10 : Nat) : ℚ) := by
    rw [← absRat_places, hsplit, pow_add, pow_succ, ← mul_assoc, ← mul_assoc, ← abs_toRat, hn]
    push_cast
    have hsame : places + 1 + (d.getPt - places - 1) - places - 1 = d.getPt - places - 1 := by omega
    rw [hsame]
    ring
  apply h.shortest (by omega)
  rw [Nat.cast_inj.mp hmantissa]
  exact Nat.mul_mod_left _ 10

/-! ### The places that go right -/

theorem roundsAt_iff (hplaces : places ≤ 28) (d : ILDecimal) (roundMode : RoundMode) :
    RoundsAt roundMode d places ↔ ¬FalseTie roundMode d.toRat places := by
  by_cases hle : d.getPt ≤ places
  · have hwhole : |d.toRat| * 10 ^ places = (d.mantissa * 10 ^ (places - d.getPt) : Nat) := by
      have hpow : (10 : ℚ) ^ places = 10 ^ d.getPt * 10 ^ (places - d.getPt) := by
        rw [← pow_add, Nat.add_sub_cancel' hle]
      rw [abs_toRat, hpow, ← mul_assoc, absRat_places]
      push_cast
      rfl
    obtain ⟨hround, htie⟩ := roundAt_of_whole roundMode hwhole
    refine iff_of_true ⟨d, ?_, hround.symm, fun _ => ⟨rfl, fun _ => rfl⟩⟩ htie
    exact if_pos (.inr (Int.ofNat_le.mpr hle))
  · obtain ⟨result, hresult, htoRat⟩ :=
      ilDecimalRound_dropped hplaces (Nat.lt_of_not_le hle) roundMode
    have hk : d.getPt - (d.getPt - places) = places := by omega
    have hfloor : ⌊absRat d * 10 ^ d.getPt⌋₊ = d.mantissa := by
      rw [absRat_places, Nat.floor_natCast]
    have hkept := floor_dropped hfloor (Nat.sub_le d.getPt places)
    have hdigit := droppedDigit_le_iff (absRat_nonneg d) hfloor (Nat.sub_le d.getPt places) (by omega)
    rw [hk] at hkept hdigit
    have hrule := roundsDigit_eq_rule roundMode (d.mantissa / 10 ^ (d.getPt - places)) _ _ hdigit
    have hright : result.toRat = roundAt roundMode d.toRat places ↔
        ¬FalseTie roundMode d.toRat places := by
      rw [htoRat, eq_roundAt_iff, Rounding.round, hkept, Nat.add_left_cancel_iff,
        (Function.LeftInverse.injective Bool.ofNat_toNat).eq_iff, hrule, FalseTie, abs_toRat, hkept]
      intro hzero
      rw [hzero, droppedDigit, Nat.zero_div, Nat.zero_div, Nat.zero_mod, ite_self, roundsDigit_zero]
      rfl
    constructor
    · rintro ⟨result', hresult', hvalue, _⟩
      rw [hresult] at hresult'
      cases hresult'
      exact hright.mp hvalue
    · intro htie
      have hvalue := hright.mpr htie
      refine ⟨result, hresult, hvalue, fun hmultiple => ⟨?_, fun hcanonical => ?_⟩⟩
      · obtain ⟨n, hn⟩ := hmultiple.whole
        rw [hvalue, (roundAt_of_whole roundMode hn).1]
      · exact absurd (hcanonical.le_of_multiple hmultiple) hle

/-- `ILDecimalRound` goes right unless it takes more than a half for a tie. -/
theorem ilDecimalRound_iff (hplaces : places ≤ 28) (d : ILDecimal) (roundMode : RoundMode) :
    RoundsAt roundMode d places ↔ ¬FalseTie roundMode d.toRat places :=
  roundsAt_iff hplaces d roundMode

theorem ilDecimalRound_iff_zero :
    RoundsAt .halfEven ⟨0x00010000, 0, 0, 25⟩ 0 ↔
      ¬FalseTie .halfEven (ILDecimal.mk 0x00010000 0 0 25).toRat 0 :=
  ilDecimalRound_iff (Nat.zero_le 28) ⟨0x00010000, 0, 0, 25⟩ .halfEven

/-- 2.51 is nearer to 3 than to 2. -/
theorem not_roundsAt_251 : ¬RoundsAt .halfEven ⟨0x00020000, 0, 0, 251⟩ 0 := by
  rw [roundsAt_iff (Nat.zero_le 28), not_not]
  have hmantissa : (ILDecimal.mk 0x00020000 0 0 251).mantissa = 251 := by decide
  have hpt : (ILDecimal.mk 0x00020000 0 0 251).getPt = 2 := by decide
  have habs : |(ILDecimal.mk 0x00020000 0 0 251).toRat| * 10 ^ 0 = 251 / 100 := by
    rw [abs_toRat, absRat, hmantissa, hpt]
    norm_num
  have hfloor : ⌊(251 / 100 : ℚ)⌋₊ = 2 := by
    rw [Nat.floor_eq_iff (by norm_num)]
    norm_num
  unfold FalseTie frac
  rw [habs, hfloor]
  norm_num

end Pnet.Support.ILDecimal
