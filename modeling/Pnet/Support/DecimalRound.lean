import Pnet.Lib.Division
import Pnet.Support.DecimalNormalize

/-! When `Normalize` rounds a number correctly, and with it the sum, the difference and the
product of decimals. -/
namespace Pnet.Support.ILDecimal
open Pnet.Lib BigEndian Rounding

def rule : RoundMode → Rule
  | .down => Rounding.down
  | .halfUp => Rounding.halfUp
  | .halfEven => Rounding.halfEven

def Fits (roundMode : RoundMode) (x : ℚ) (s : Nat) : Prop :=
  Rounding.round (rule roundMode) (x * 10 ^ s) < 2 ^ 96

/-- A number that is not negative is rounded at the most places it fits with, or fits with
none. -/
def RoundsTo (roundMode : RoundMode) (x : ℚ) : Option ℚ → Prop
  | some q => ∃ s, IsGreatest {s | s ≤ 28 ∧ Fits roundMode x s} s ∧
      q = Rounding.round (rule roundMode) (x * 10 ^ s) / 10 ^ s
  | none => ∀ s ≤ 28, ¬Fits roundMode x s

/-- What goes wrong at the most places that a number has room for before it is rounded: one
digit does not tell a tie, and 2^96 is divided by ten without its carry. -/
def UnluckyAt (roundMode : RoundMode) (x : ℚ) (s : Nat) : Prop :=
  (roundMode = .halfEven ∧ ⌊x * 10 ^ s⌋₊ % 2 = 0 ∧ 1 / 2 < frac (x * 10 ^ s) ∧
    frac (x * 10 ^ s) < 6 / 10) ∨
  (roundMode ≠ .down ∧ ⌊x * 10 ^ s⌋₊ = 2 ^ 96 - 1 ∧ 0 < s ∧ 1 / 2 ≤ frac (x * 10 ^ s))

def Unlucky (roundMode : RoundMode) (x : ℚ) : Prop :=
  ∃ s, IsGreatest {s | s ≤ 28 ∧ ⌊x * 10 ^ s⌋₊ < 2 ^ 96} s ∧ UnluckyAt roundMode x s

variable {roundMode : RoundMode} {x : ℚ} {s : Nat}

theorem rule_zero (roundMode : RoundMode) (n : Nat) : rule roundMode n 0 = false := by
  cases roundMode with
  | down => rfl
  | halfUp =>
    apply decide_eq_false
    norm_num
  | halfEven =>
    apply decide_eq_false
    norm_num

theorem Fits.floor_lt (h : Fits roundMode x s) : ⌊x * 10 ^ s⌋₊ < 2 ^ 96 :=
  (floor_le_round _ _).trans_lt h

theorem unlucky_iff (h : IsGreatest {s | s ≤ 28 ∧ ⌊x * 10 ^ s⌋₊ < 2 ^ 96} s) :
    Unlucky roundMode x ↔ UnluckyAt roundMode x s := by
  constructor
  · rintro ⟨s', hs', hunlucky⟩
    rwa [h.unique hs']
  · intro hunlucky
    exact ⟨s, h, hunlucky⟩

/-- Where a number fits at the most places it has room for, it fits with no more. -/
theorem greatest_fits (h : IsGreatest {s | s ≤ 28 ∧ ⌊x * 10 ^ s⌋₊ < 2 ^ 96} s)
    (hfits : Fits roundMode x s) : IsGreatest {s | s ≤ 28 ∧ Fits roundMode x s} s := by
  constructor
  · exact ⟨h.1.1, hfits⟩
  · rintro s' ⟨hs', hfits'⟩
    exact h.2 ⟨hs', hfits'.floor_lt⟩

/-- One digit decides as the whole fraction does, but for a tie that is none. -/
theorem roundsDigit_eq_rule (roundMode : RoundMode) (t digit : Nat) (f : ℚ) (hdigit : ∀ j ≤ 10, j ≤ digit ↔ (j : ℚ) / 10 ≤ f) :
    roundsDigit roundMode digit t = rule roundMode t f ↔
      ¬(roundMode = .halfEven ∧ t % 2 = 0 ∧ 1 / 2 < f ∧ f < 6 / 10) := by
  have hfive : 5 ≤ digit ↔ 1 / 2 ≤ f := by
    rw [hdigit 5 (by omega)]
    norm_num
  have hsix : 5 < digit ↔ 6 / 10 ≤ f := hdigit 6 (by omega)
  cases roundMode with
  | down => simp [roundsDigit, rule, Rounding.down]
  | halfUp => simp [roundsDigit, rule, Rounding.halfUp, hfive]
  | halfEven =>
    unfold roundsDigit rule Rounding.halfEven
    simp only [reduceCtorEq, false_and, true_and, false_or, decide_eq_decide]
    rcases lt_trichotomy f (1 / 2) with hlt | heq | hgt
    · have hless : ¬5 ≤ digit := by
        rw [hfive]
        exact not_le.2 hlt
      constructor
      · rintro - ⟨_, hgt, _⟩
        exact lt_asymm hlt hgt
      · intro _
        constructor
        · omega
        · rintro (hgt | ⟨heq, _⟩)
          · exact absurd hgt (lt_asymm hlt)
          · exact absurd heq (ne_of_lt hlt)
    · have hequal : digit = 5 := by
        have hle := hfive.2 (le_of_eq heq.symm)
        have hnot : ¬5 < digit := by
          rw [hsix, heq]
          norm_num
        omega
      rw [heq, hequal]
      simp
    · have hle := hfive.2 (le_of_lt hgt)
      by_cases hlarge : 6 / 10 ≤ f
      · have hmore := hsix.2 hlarge
        constructor
        · rintro - ⟨_, _, hless⟩
          exact absurd hless (not_lt.2 hlarge)
        · intro _
          exact iff_of_true (Or.inl hmore) (Or.inl hgt)
      · have hequal : digit = 5 := by
          have hnot : ¬5 < digit := fun h => hlarge (hsix.1 h)
          omega
        have hne : f ≠ 1 / 2 := ne_of_gt hgt
        rw [not_le] at hlarge
        rw [hequal]
        simp only [hgt, hlarge, hne, true_and, and_true, Nat.lt_irrefl, false_or, false_and,
          or_false, iff_true]
        omega

/-! ### Dropping digits -/

variable {v d k : Nat}

theorem floor_dropped (hfloor : ⌊x * 10 ^ d⌋₊ = v) (hk : k ≤ d) :
    ⌊x * 10 ^ (d - k)⌋₊ = v / 10 ^ k := by
  rw [floor_places x (d - k) k, Nat.sub_add_cancel hk, hfloor]

theorem droppedDigit_le_iff (hx : 0 ≤ x) (hfloor : ⌊x * 10 ^ d⌋₊ = v) (hk : k ≤ d) (hpos : 0 < k) :
    ∀ j ≤ 10, j ≤ droppedDigit v k ↔ (j : ℚ) / 10 ≤ frac (x * 10 ^ (d - k)) := by
  intro j hj
  have hsplit : d - k + 1 = d - (k - 1) := by omega
  have hten : x * 10 ^ (d - k) * 10 = x * 10 ^ (d - (k - 1)) := by
    rw [← hsplit, pow_succ]
    ring
  have hdiv : v / 10 ^ k = v / 10 ^ (k - 1) / 10 := by
    rw [Nat.div_div_eq_div_mul, ← Nat.pow_succ]
    congr 2
    omega
  have hmod := Nat.div_add_mod (v / 10 ^ (k - 1)) 10
  rw [← digit_le_iff (by positivity) hj, hten, floor_dropped hfloor hk,
    floor_dropped hfloor (by omega : k - 1 ≤ d), hdiv, droppedDigit, if_neg (by omega)]
  omega

/-- Digits are dropped down to the most places there is room for. -/
theorem Reduces.greatest (h : Reduces v d k) (hfloor : ⌊x * 10 ^ d⌋₊ = v) (hpos : 0 < k)
    (hx : 0 ≤ x) (hlt : v / 10 ^ k < 2 ^ 96) :
    IsGreatest {s | s ≤ 28 ∧ ⌊x * 10 ^ s⌋₊ < 2 ^ 96} (d - k) := by
  have hle := h.le
  constructor
  · refine ⟨h.useful, ?_⟩
    rwa [floor_dropped hfloor hle]
  · rintro s ⟨hs, hfits⟩
    by_contra hgt
    have hmono := floor_places_mono hx (by omega : d - (k - 1) ≤ s)
    rw [floor_dropped hfloor (by omega)] at hmono
    have hneeded := h.needed (k - 1) (by omega)
    omega

/-- With no places left, a number that is too large does not fit at all. -/
theorem not_fits_of_large (hx : 0 ≤ x) (hlarge : 2 ^ 96 ≤ Rounding.round (rule roundMode) x)
    (hnext : 2 ^ 96 ≤ ⌊x * 10 ^ 1⌋₊) : ∀ s ≤ 28, ¬Fits roundMode x s := by
  intro s _ hfits
  cases s with
  | zero =>
    unfold Fits at hfits
    rw [pow_zero, mul_one] at hfits
    omega
  | succ s =>
    have hmono := floor_places_mono hx (by omega : 1 ≤ s + 1)
    have hlt := hfits.floor_lt
    omega

theorem half_le_of_rule {t : Nat} {f : ℚ} (h : rule roundMode t f = true) :
    roundMode ≠ .down ∧ 1 / 2 ≤ f := by
  cases roundMode with
  | down => cases h
  | halfUp => exact ⟨nofun, of_decide_eq_true h⟩
  | halfEven =>
    refine ⟨nofun, ?_⟩
    rcases of_decide_eq_true h with hgt | ⟨heq, _⟩
    · exact le_of_lt hgt
    · exact le_of_eq heq.symm

theorem rule_of_half {t : Nat} {f : ℚ} (hmode : roundMode ≠ .down) (hodd : t % 2 = 1)
    (hhalf : 1 / 2 ≤ f) : rule roundMode t f = true := by
  cases roundMode with
  | down => exact absurd rfl hmode
  | halfUp => exact decide_eq_true hhalf
  | halfEven =>
    apply decide_eq_true
    rcases lt_or_eq_of_le hhalf with hlt | heq
    · exact Or.inl hlt
    · exact Or.inr ⟨heq.symm, hodd⟩

/-! ### The result of `Normalize` -/

def magnitude (normalized : List ILUInt32 × Int) : ℚ :=
  value normalized.1 / 10 ^ normalized.2.toNat

theorem Trimmed.magnitude {n e : Nat} {out : List ILUInt32} (h : Trimmed n d out e) :
    ILDecimal.magnitude (out, (e : Int)) = n / 10 ^ d := by
  have hpow : (10 : ℚ) ^ d = 10 ^ (d - e) * 10 ^ e := by
    rw [← pow_add, Nat.sub_add_cancel h.le]
  have hfuel : (e : Int).toNat = e := rfl
  unfold ILDecimal.magnitude
  rw [← h.value, hpow, hfuel]
  push_cast
  field_simp

/-- A number that is whole at some places comes out as it is. -/
theorem exact_roundsTo (roundMode : RoundMode) (hexact : x * 10 ^ d = v) (hd : d ≤ 28) (hv : v < 2 ^ 96) (hx : 0 ≤ x) :
    RoundsTo roundMode x (some x) ∧ ¬Unlucky roundMode x := by
  have hwhole : ∀ s, d ≤ s → x * 10 ^ s = ((v * 10 ^ (s - d) : Nat) : ℚ) := by
    intro s hs
    have hpow : (10 : ℚ) ^ s = 10 ^ d * 10 ^ (s - d) := by
      rw [← pow_add, Nat.add_sub_cancel' hs]
    rw [hpow, ← mul_assoc, hexact]
    push_cast
    ring
  have hfloor : ⌊x * 10 ^ d⌋₊ < 2 ^ 96 := by
    rw [hexact, Nat.floor_natCast]
    exact hv
  obtain ⟨s, hs⟩ := exists_greatest (p := fun s => ⌊x * 10 ^ s⌋₊ < 2 ^ 96) 28
    ((floor_places_mono hx (Nat.zero_le d)).trans_lt hfloor)
  have hds : d ≤ s := hs.2 ⟨hd, hfloor⟩
  have hround : Rounding.round (rule roundMode) (x * 10 ^ s) = v * 10 ^ (s - d) := by
    rw [hwhole s hds, round_natCast (rule_zero roundMode)]
  have hlt := hs.1.2
  rw [hwhole s hds, Nat.floor_natCast] at hlt
  constructor
  · refine ⟨s, greatest_fits hs (hround.trans_lt hlt), ?_⟩
    rw [hround, ← hwhole s hds]
    field_simp
  · rw [unlucky_iff hs]
    unfold UnluckyAt
    rw [hwhole s hds, frac_natCast]
    norm_num

/-- Digits are dropped of a mantissa that then fits. -/
theorem dropped_roundsTo (hgreatest : IsGreatest {s | s ≤ 28 ∧ ⌊x * 10 ^ s⌋₊ < 2 ^ 96} s)
    {t digit : Nat} (ht : ⌊x * 10 ^ s⌋₊ = t)
    (hdigit : ∀ j ≤ 10, j ≤ digit ↔ (j : ℚ) / 10 ≤ frac (x * 10 ^ s))
    (hfits : t + (roundsDigit roundMode digit t).toNat < 2 ^ 96) :
    RoundsTo roundMode x (some (((t + (roundsDigit roundMode digit t).toNat : Nat) : ℚ) / 10 ^ s)) ↔
      ¬Unlucky roundMode x := by
  have hrule := roundsDigit_eq_rule roundMode t digit _ hdigit
  have hround : Rounding.round (rule roundMode) (x * 10 ^ s) =
      t + (rule roundMode t (frac (x * 10 ^ s))).toNat := by
    unfold Rounding.round
    rw [ht]
  rw [unlucky_iff hgreatest, UnluckyAt, ht]
  by_cases hsame : roundsDigit roundMode digit t = rule roundMode t (frac (x * 10 ^ s))
  · rw [hsame] at hfits ⊢
    apply iff_of_true
    · exact ⟨s, greatest_fits hgreatest (hround.trans_lt hfits), by rw [hround]⟩
    · rintro (htie | ⟨hmode, hall, _, hhalf⟩)
      · exact hrule.1 hsame htie
      · rw [rule_of_half hmode (by omega) hhalf, Bool.toNat_true] at hfits
        omega
  · have htie := not_not.1 fun h => hsame (hrule.2 h)
    apply iff_of_false
    · rintro ⟨s', hs', heq⟩
      have hlt := ht.symm.trans_lt hgreatest.1.2
      have hle := Bool.toNat_le (rule roundMode t (frac (x * 10 ^ s)))
      have hfits' : Fits roundMode x s := by
        unfold Fits
        rw [hround]
        omega
      rw [← (greatest_fits hgreatest hfits').unique hs', hround] at heq
      have hpos : (0 : ℚ) < 10 ^ s := by positivity
      have hcast := (div_left_inj' (ne_of_gt hpos)).1 heq
      have hbool := congrArg Bool.ofNat (Nat.add_left_cancel (Nat.cast_inj.1 hcast))
      rw [Bool.ofNat_toNat, Bool.ofNat_toNat] at hbool
      exact hsame hbool
    · exact fun h => h (Or.inl htie)

/-- Digits are dropped of a mantissa that is then 2^96. -/
theorem full_roundsTo (hx : 0 ≤ x)
    (hgreatest : IsGreatest {s | s ≤ 28 ∧ ⌊x * 10 ^ s⌋₊ < 2 ^ 96} s)
    {digit : Nat} (ht : ⌊x * 10 ^ s⌋₊ = 2 ^ 96 - 1)
    (hdigit : ∀ j ≤ 10, j ≤ digit ↔ (j : ℚ) / 10 ≤ frac (x * 10 ^ s))
    (hup : roundsDigit roundMode digit (2 ^ 96 - 1) = true) :
    RoundsTo roundMode x (if s = 0 then none else some 0) ↔ ¬Unlucky roundMode x := by
  have hrule := roundsDigit_eq_rule roundMode (2 ^ 96 - 1) digit _ hdigit
  have hsame := hrule.2 (by norm_num)
  rw [hup] at hsame
  obtain ⟨hmode, hhalf⟩ := half_le_of_rule hsame.symm
  rw [unlucky_iff hgreatest]
  unfold UnluckyAt
  rw [ht]
  by_cases hs : s = 0
  · subst hs
    rw [if_pos rfl]
    apply iff_of_true
    · have hround : Rounding.round (rule roundMode) (x * 10 ^ 0) = 2 ^ 96 := by
        unfold Rounding.round
        rw [ht, ← hsame]
        rfl
      have hdigits := floor_places x 0 1
      rw [ht, Nat.zero_add] at hdigits
      rw [pow_zero, mul_one] at hround
      exact not_fits_of_large hx (le_of_eq hround.symm) (by omega)
    · norm_num
  · rw [if_neg hs]
    apply iff_of_false
    · rintro ⟨s', hs', heq⟩
      have hless : ⌊x * 10 ^ (s - 1)⌋₊ = (2 ^ 96 - 1) / 10 := by
        have hdigits := floor_places x (s - 1) 1
        rwa [Nat.sub_add_cancel (Nat.pos_of_ne_zero hs), ht, pow_one] at hdigits
      have hfits : Fits roundMode x (s - 1) := by
        have hle := round_le_floor_succ (rule roundMode) (x * 10 ^ (s - 1))
        rw [hless] at hle
        exact hle.trans_lt (by norm_num)
      have hmono := floor_places_mono hx (hs'.2 ⟨(by have h := hgreatest.1.1; omega), hfits⟩)
      have hle := floor_le_round (rule roundMode) (x * 10 ^ s')
      have hpos : (0 : ℚ) < 10 ^ s' := by positivity
      have hzero : Rounding.round (rule roundMode) (x * 10 ^ s') = 0 := by
        have hdiv := (div_eq_zero_iff.1 heq.symm).resolve_right (ne_of_gt hpos)
        exact_mod_cast hdiv
      omega
    · exact fun h => h (Or.inr ⟨hmode, rfl, Nat.pos_of_ne_zero hs, hhalf⟩)

/-- `Normalize` on the whole part of a number at some places; what it leaves of the number
must not matter, or digits are dropped. -/
theorem normalize_roundsTo (hx : 0 ≤ x) {ws : List ILUInt32} (hfloor : ⌊x * 10 ^ d⌋₊ = value ws)
    (hexact : Reduces (value ws) d 0 → x * 10 ^ d = value ws) :
    RoundsTo roundMode x ((normalize ws d roundMode).map magnitude) ↔ ¬Unlucky roundMode x := by
  obtain ⟨k, hreduces, hfit, hover⟩ := normalize_spec ws d roundMode
  have hle := hreduces.le
  have ht := floor_dropped hfloor hle
  by_cases hlarge : 2 ^ 96 ≤ value ws / 10 ^ k
  · have hd : d - k = 0 := by
      have hfits := hreduces.fits
      omega
    rw [hd, pow_zero, mul_one] at ht
    rw [hover (hlarge.trans (Nat.le_add_right _ _)), if_pos hd]
    have hfloors : ∀ s, 2 ^ 96 ≤ ⌊x * 10 ^ s⌋₊ := by
      intro s
      have hmono := floor_places_mono hx (Nat.zero_le s)
      rw [pow_zero, mul_one, ht] at hmono
      exact hlarge.trans hmono
    apply iff_of_true
    · intro s _ hfits
      exact absurd hfits.floor_lt (not_lt.2 (hfloors s))
    · rintro ⟨s, hs, _⟩
      exact absurd hs.1.2 (not_lt.2 (hfloors s))
  · rw [not_le] at hlarge
    by_cases hk : k = 0
    · subst hk
      rw [pow_zero, Nat.div_one] at hlarge hfit
      rw [droppedDigit, if_pos rfl, roundsDigit_zero, Bool.toNat_false, Nat.add_zero] at hfit
      obtain ⟨out, e, hout, htrimmed⟩ := hfit hlarge
      have hwhole := hexact hreduces
      have hvalue : (value ws : ℚ) / 10 ^ d = x := by
        rw [← hwhole]
        field_simp
      obtain ⟨hrounds, hlucky⟩ :=
        exact_roundsTo roundMode hwhole hreduces.useful hlarge hx
      rw [hout]
      show RoundsTo roundMode x (some (magnitude (out, (e : Int)))) ↔ _
      rw [htrimmed.magnitude, Nat.sub_zero, hvalue]
      exact iff_of_true hrounds hlucky
    · have hpos := Nat.pos_of_ne_zero hk
      have hgreatest := hreduces.greatest hfloor hpos hx hlarge
      have hdigit := droppedDigit_le_iff hx hfloor hle hpos
      by_cases hsum : value ws / 10 ^ k +
          (roundsDigit roundMode (droppedDigit (value ws) k) (value ws / 10 ^ k)).toNat < 2 ^ 96
      · obtain ⟨out, e, hout, htrimmed⟩ := hfit hsum
        rw [hout]
        show RoundsTo roundMode x (some (magnitude (out, (e : Int)))) ↔ _
        rw [htrimmed.magnitude]
        exact dropped_roundsTo hgreatest ht hdigit hsum
      · have hbool := Bool.toNat_le
          (roundsDigit roundMode (droppedDigit (value ws) k) (value ws / 10 ^ k))
        have hall : value ws / 10 ^ k = 2 ^ 96 - 1 := by omega
        have hup : roundsDigit roundMode (droppedDigit (value ws) k) (2 ^ 96 - 1) = true := by
          rw [hall] at hsum hbool
          rw [← Bool.toNat_eq_one]
          omega
        have hnone : (if d - k = 0 then none else some ([0, 0, 0], (0 : Int))).map magnitude =
            if d - k = 0 then none else some 0 := by
          split
          · rfl
          · refine congrArg some (div_eq_zero_iff.2 (Or.inl ?_))
            exact_mod_cast value_replicate_zero 3
        rw [hall] at ht
        rw [hover (not_lt.1 hsum), hnone]
        exact full_roundsTo hx hgreatest ht hdigit hup

end Pnet.Support.ILDecimal
