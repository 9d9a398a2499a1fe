import Pnet.Support.DecimalWords

/-! What `Normalize` makes of a value: how many digits it drops, how it rounds on the last of
these, and which zeros it removes. -/
namespace Pnet.Support.ILDecimal
open Pnet.Lib BigEndian

/-- `k` digits are dropped of `v`, of which `d` are after the decimal point. -/
structure Reduces (v d k : Nat) : Prop where
  le : k ≤ d
  useful : d - k ≤ 28
  fits : v / 10 ^ k < 2 ^ 96 ∨ d = k
  needed : ∀ j < k, 2 ^ 96 ≤ v / 10 ^ j ∨ 28 < d - j

/-- The last of `k` digits that are dropped. -/
def droppedDigit (v k : Nat) : Nat := if k = 0 then 0 else v / 10 ^ (k - 1) % 10

/-- Whether a mantissa is rounded up, whose last dropped digit is `digit`. -/
def roundsDigit (roundMode : RoundMode) (digit mantissa : Nat) : Bool :=
  (roundMode = .halfUp ∧ 5 ≤ digit) ∨ (roundMode = .halfEven ∧ 5 < digit) ∨
    (roundMode = .halfEven ∧ digit = 5 ∧ mantissa % 2 = 1)

/-- `n` with `d` decimal places is `out` with `e` of them, and no zeros at the end. -/
structure Trimmed (n d : Nat) (out : List ILUInt32) (e : Nat) : Prop where
  length : out.length = 3
  le : e ≤ d
  value : value out * 10 ^ (d - e) = n
  shortest : 0 < e → BigEndian.value out % 10 ≠ 0

/-! ### Dropping digits -/

theorem Reduces.zero {v d : Nat} (h : ¬((2 ^ 96 ≤ v ∧ 0 < d) ∨ 28 < d)) : Reduces v d 0 := by
  apply Reduces.mk
  · omega
  · omega
  · rw [Nat.pow_zero, Nat.div_one]
    omega
  · omega

theorem Reduces.succ {v d k : Nat} (h : (2 ^ 96 ≤ v ∧ 0 < d + 1) ∨ 28 < d + 1)
    (hreduces : Reduces (v / 10) d k) : Reduces v (d + 1) (k + 1) := by
  have hdiv : ∀ j, v / 10 ^ (j + 1) = v / 10 / 10 ^ j := by
    intro j
    rw [Nat.pow_succ', Nat.div_div_eq_div_mul]
  apply Reduces.mk
  · exact Nat.succ_le_succ hreduces.le
  · have huseful := hreduces.useful
    omega
  · rw [hdiv]
    have hfits := hreduces.fits
    omega
  · intro j hj
    cases j with
    | zero =>
      rw [Nat.pow_zero, Nat.div_one]
      omega
    | succ j =>
      have hneeded := hreduces.needed j (by omega)
      rw [hdiv]
      omega

theorem stripZeros_stripZeros (ws : List ILUInt32) : stripZeros (stripZeros ws) = stripZeros ws :=
  List.dropWhile_idempotent _ ws

theorem three_lt_length {ws : List ILUInt32} (hstrip : stripZeros ws = ws) :
    ws.length > 3 ↔ 2 ^ 96 ≤ value ws := by
  have h := lt_length_stripZeros ws 3
  rw [hstrip] at h
  exact h

theorem reduce_spec (d : Nat) (ws : List ILUInt32) (hstrip : stripZeros ws = ws)
    (remainder : ILUInt32) : ∃ k, Reduces (value ws) d k ∧
      value (reduce d ws d remainder).1 = value ws / 10 ^ k ∧
      stripZeros (reduce d ws d remainder).1 = (reduce d ws d remainder).1 ∧
      (reduce d ws d remainder).2.1 = ((d - k : Nat) : Int) ∧
      (reduce d ws d remainder).2.2.toNat =
        if k = 0 then remainder.toNat else droppedDigit (value ws) k := by
  induction d generalizing ws remainder with
  | zero =>
    refine ⟨0, Reduces.zero (by omega), ?_, hstrip, rfl, rfl⟩
    rw [Nat.pow_zero, Nat.div_one]
    rfl
  | succ d ih =>
    have hthree := three_lt_length hstrip
    unfold reduce
    by_cases hcond : (2 ^ 96 ≤ value ws ∧ 0 < d + 1) ∨ 28 < d + 1
    · obtain ⟨hquotient, hremainder⟩ := value_divByTen ws
      obtain ⟨k, hreduces, hvalue, hstripped, hdecpt, hlast⟩ :=
        ih _ (stripZeros_stripZeros _) (divByTen ws).2
      have hpred : ((d + 1 : Nat) : Int) - 1 = (d : Nat) := by omega
      rw [if_pos (by omega), hpred]
      rw [value_stripZeros, hquotient] at hreduces hvalue hlast
      refine ⟨k + 1, hreduces.succ hcond, ?_, hstripped, ?_, ?_⟩
      · rw [hvalue, Nat.div_div_eq_div_mul, Nat.pow_succ']
      · rw [hdecpt, Nat.add_sub_add_right]
      · rw [hlast, if_neg (Nat.succ_ne_zero k)]
        unfold droppedDigit
        rw [if_neg (Nat.succ_ne_zero k), Nat.add_sub_cancel]
        by_cases hk : k = 0
        · rw [if_pos hk, hk, Nat.pow_zero, Nat.div_one, hremainder]
        · have hsucc : (k - 1).succ = k := by omega
          rw [if_neg hk, if_neg hk, Nat.div_div_eq_div_mul, ← Nat.pow_succ', hsucc]
    · rw [if_neg (by omega)]
      refine ⟨0, Reduces.zero hcond, ?_, hstrip, rfl, rfl⟩
      rw [Nat.pow_zero, Nat.div_one]

/-! ### Rounding -/

theorem value_mod_two (ws : List ILUInt32) : value ws % 2 = (ws.getLastD 0).toNat % 2 := by
  cases ws using List.reverseRecOn with
  | nil => rfl
  | append_singleton ws word =>
    rw [value_append, List.length_singleton, Nat.pow_one, List.getLastD_concat]
    simp
    omega

theorem roundsUp_spec (roundMode : RoundMode) (remainder : ILUInt32) (ws : List ILUInt32) :
    roundsUp roundMode remainder ws = roundsDigit roundMode remainder.toNat (value ws) := by
  have hodd : (ws.getLastD 0 &&& 1 ≠ 0) ↔ value ws % 2 = 1 := by
    rw [value_mod_two, Ne, ← BitVec.toNat_inj, BitVec.toNat_and]
    show ¬_ &&& 1 = 0 ↔ _
    rw [Nat.and_one_is_mod]
    omega
  have hfive : remainder = 5 ↔ remainder.toNat = 5 := by
    rw [← BitVec.toNat_inj]
    rfl
  unfold roundsUp roundsDigit
  simp only [hodd, hfive]
  rfl

theorem roundsDigit_zero (roundMode : RoundMode) (n : Nat) : roundsDigit roundMode 0 n = false := by
  unfold roundsDigit
  simp

theorem length_pad_of_lt {ws : List ILUInt32} (hstrip : stripZeros ws = ws) :
    value ws < 2 ^ 96 ↔ (pad ws).length = 3 := by
  have hthree := three_lt_length hstrip
  rw [length_pad]
  omega

/-! ### Zeros at the end -/

theorem trimFraction_spec (d : Nat) (ws : List ILUInt32) (hlength : ws.length ≤ 3) :
    ∃ e ≤ d, (trimFraction d ws d).2 = (e : Int) ∧ (trimFraction d ws d).1.length ≤ 3 ∧
      value (trimFraction d ws d).1 * 10 ^ (d - e) = value ws ∧
      (0 < e → (trimFraction d ws d).1.length = 0 ∨ value (trimFraction d ws d).1 % 10 ≠ 0) := by
  induction d generalizing ws with
  | zero => exact ⟨0, Nat.le_refl 0, rfl, hlength, Nat.mul_one _, nofun⟩
  | succ d ih =>
    obtain ⟨hquotient, hremainder⟩ := value_divByTen ws
    unfold trimFraction
    by_cases hempty : ws.length = 0
    · rw [if_neg (by omega)]
      exact ⟨d + 1, Nat.le_refl _, rfl, hlength, by rw [Nat.sub_self, Nat.pow_zero, Nat.mul_one],
        fun _ => Or.inl hempty⟩
    · rw [if_pos (by omega)]
      by_cases hdigit : (divByTen ws).2 = 0
      · have hten : value ws % 10 = 0 := by
          rw [← hremainder, hdigit]
          rfl
        have hpred : ((d + 1 : Nat) : Int) - 1 = (d : Nat) := by omega
        have hshort : (stripZeros (divByTen ws).1).length ≤ 3 :=
          (length_stripZeros_le _).trans (by rwa [length_divByTen])
        rw [if_neg (not_not.2 hdigit), hpred]
        obtain ⟨e, he, hdecpt, hthree, hvalue, hshortest⟩ := ih _ hshort
        rw [value_stripZeros, hquotient] at hvalue
        refine ⟨e, by omega, hdecpt, hthree, ?_, hshortest⟩
        rw [Nat.succ_sub he, Nat.pow_succ, ← Nat.mul_assoc, hvalue]
        omega
      · have hten : value ws % 10 ≠ 0 := by
          intro h
          rw [h] at hremainder
          exact hdigit (BitVec.eq_of_toNat_eq hremainder)
        rw [if_pos hdigit]
        exact ⟨d + 1, Nat.le_refl _, rfl, hlength, by rw [Nat.sub_self, Nat.pow_zero, Nat.mul_one],
          fun _ => Or.inr hten⟩

theorem trimmed_zero (d : Nat) : Trimmed 0 d [0, 0, 0] 0 := by
  apply Trimmed.mk rfl (Nat.zero_le d)
  · exact (congrArg (· * _) (value_replicate_zero 3)).trans (Nat.zero_mul _)
  · nofun

theorem finish_spec {ws : List ILUInt32} (hlength : ws.length ≤ 3) (d : Nat) :
    ∃ out, ∃ e : Nat, finish ws d = some (out, (e : Int)) ∧ Trimmed (value ws) d out e := by
  obtain ⟨e, he, hdecpt, hthree, hvalue, hshortest⟩ := trimFraction_spec d ws hlength
  have hfuel : (d : Int).toNat = d := rfl
  unfold finish
  simp only [hfuel]
  rw [if_neg (by omega)]
  by_cases hempty : (trimFraction d ws d).1.length = 0
  · rw [if_pos hempty]
    rw [List.length_eq_zero_iff.1 hempty, value_nil, Nat.zero_mul] at hvalue
    rw [← hvalue]
    exact ⟨_, _, rfl, trimmed_zero d⟩
  · rw [if_neg hempty, if_neg (by omega), hdecpt]
    refine ⟨_, e, rfl, ?_, he, ?_, ?_⟩
    · rw [length_pad]
      omega
    · rw [value_pad, hvalue]
    · intro hpos
      rw [value_pad]
      exact (hshortest hpos).resolve_left hempty

theorem finish_nil (d : Nat) : finish [] d = some ([0, 0, 0], 0) := by
  have htrim : (trimFraction d [] d).1 = [] := by
    cases d with
    | zero => rfl
    | succ d =>
      unfold trimFraction
      rw [if_neg (by simp)]
  have hfuel : (d : Int).toNat = d := rfl
  unfold finish
  simp only [hfuel, htrim]
  rfl

theorem finish_overflow {ws : List ILUInt32} (hlength : ws.length > 3) : finish ws 0 = none := by
  unfold finish
  exact if_pos hlength

/-! ### The whole of it -/

/-- A rounded mantissa of `t`, and 1 if it is rounded up. -/
theorem roundWords_spec {ws : List ILUInt32} (hstrip : stripZeros ws = ws) (d : Nat) :
    (value ws + 1 < 2 ^ 96 → ∃ out, roundWords (pad ws) d = some (out, (d : Int)) ∧
      out.length = 3 ∧ value out = value ws + 1) ∧
    (value ws + 1 = 2 ^ 96 → roundWords (pad ws) d =
      if d = 0 then none else some ([], (d : Int) - 1)) ∧
    (2 ^ 96 ≤ value ws → (roundWords (pad ws) 0).bind
      (fun rounded => finish rounded.1 rounded.2) = none) := by
  obtain ⟨hlength, heq⟩ := addOne_spec (pad ws)
  have hpad := length_pad_of_lt hstrip
  have hcube : (2 ^ 32) ^ 3 = 2 ^ 96 := (Nat.pow_mul 2 32 3).symm
  have hlt := value_lt (addOne (pad ws)).1
  rw [value_pad] at heq
  refine ⟨?_, ?_, ?_⟩
  · intro hless
    have hthree := hpad.1 (by omega)
    rw [hthree, hcube] at heq
    have hcarry : (addOne (pad ws)).2 = false := by
      cases hcase : (addOne (pad ws)).2 with
      | false => rfl
      | true =>
        rw [hcase, Bool.toNat_true] at heq
        omega
    unfold roundWords
    rw [hcarry, if_neg Bool.false_ne_true]
    rw [hcarry, Bool.toNat_false] at heq
    exact ⟨_, rfl, hlength.trans hthree, heq⟩
  · intro hall
    have hthree := hpad.1 (by omega)
    rw [hthree] at hlength
    rw [hthree, hcube] at heq
    rw [hlength, hcube] at hlt
    have hcarry : (addOne (pad ws)).2 = true := by
      cases hcase : (addOne (pad ws)).2 with
      | true => rfl
      | false =>
        rw [hcase, Bool.toNat_false] at heq
        omega
    rw [hcarry, Bool.toNat_true] at heq
    have hempty : stripZeros (divByTen (addOne (pad ws)).1).1 = [] := by
      apply List.eq_nil_of_length_eq_zero
      rw [length_stripZeros_eq_zero, (value_divByTen _).1]
      omega
    unfold roundWords
    rw [hcarry, if_pos rfl, hempty]
    by_cases hd : d = 0
    · rw [if_pos hd, if_pos (by omega)]
    · rw [if_neg hd, if_neg (by omega)]
  · intro hge
    have hlong : (addOne (pad ws)).1.length > 3 := by
      rw [hlength, length_pad]
      have hthree := three_lt_length hstrip
      omega
    unfold roundWords
    cases (addOne (pad ws)).2 with
    | false => exact finish_overflow hlong
    | true => rfl

/-- What is left of `Normalize` when the digits are dropped. -/
theorem rounded_spec {ws : List ILUInt32} (hstrip : stripZeros ws = ws) (d : Nat)
    (hfits : value ws < 2 ^ 96 ∨ d = 0) (up : Bool) :
    let rounded := if up then (roundWords (pad ws) d).bind fun rounded => finish rounded.1 rounded.2
      else finish (pad ws) d
    (value ws + up.toNat < 2 ^ 96 → ∃ out, ∃ e : Nat, rounded = some (out, (e : Int)) ∧
      Trimmed (value ws + up.toNat) d out e) ∧
    (2 ^ 96 ≤ value ws + up.toNat → rounded = if d = 0 then none else some ([0, 0, 0], 0)) := by
  have hpad := length_pad_of_lt hstrip
  have hthree := three_lt_length hstrip
  cases up with
  | false =>
    dsimp only
    rw [Bool.toNat_false, Nat.add_zero, if_neg Bool.false_ne_true]
    constructor
    · intro hlt
      obtain ⟨out, e, hfinish, htrimmed⟩ := finish_spec (Nat.le_of_eq (hpad.1 hlt)) d
      rw [value_pad] at htrimmed
      exact ⟨out, e, hfinish, htrimmed⟩
    · intro hge
      have hd : d = 0 := by omega
      subst hd
      rw [if_pos rfl]
      apply finish_overflow
      rw [length_pad]
      omega
  | true =>
    obtain ⟨hless, hall, hmore⟩ := roundWords_spec hstrip d
    dsimp only
    rw [Bool.toNat_true, if_pos rfl]
    constructor
    · intro hlt
      obtain ⟨rounded, hrounded, hlength, hsum⟩ := hless hlt
      obtain ⟨out, e, hfinish, htrimmed⟩ := finish_spec (Nat.le_of_eq hlength) d
      rw [hsum] at htrimmed
      rw [hrounded]
      exact ⟨out, e, hfinish, htrimmed⟩
    · clear hless
      intro hge
      by_cases hfull : value ws + 1 = 2 ^ 96
      · rw [hall hfull]
        by_cases hd : d = 0
        · rw [if_pos hd, if_pos hd]
          rfl
        · have hpred : (d : Int) - 1 = ((d - 1 : Nat) : Int) := by omega
          rw [if_neg hd, if_neg hd, hpred]
          exact finish_nil (d - 1)
      · have hd : d = 0 := by omega
        subst hd
        rw [if_pos rfl]
        exact hmore (by omega)

/-- The number of digits that are dropped, and what becomes of the rest. -/
theorem normalize_spec (ws : List ILUInt32) (d : Nat) (roundMode : RoundMode) :
    ∃ k, Reduces (value ws) d k ∧
      let t := value ws / 10 ^ k +
        (roundsDigit roundMode (droppedDigit (value ws) k) (value ws / 10 ^ k)).toNat
      (t < 2 ^ 96 → ∃ out, ∃ e : Nat, normalize ws d roundMode = some (out, (e : Int)) ∧
        Trimmed t (d - k) out e) ∧
      (2 ^ 96 ≤ t → normalize ws d roundMode = if d - k = 0 then none else some ([0, 0, 0], 0)) := by
  obtain ⟨k, hreduces, hvalue, hstrip, hdecpt, hlast⟩ :=
    reduce_spec d (stripZeros ws) (stripZeros_stripZeros ws) 0
  rw [value_stripZeros] at hreduces hvalue hlast
  have hzero : (0 : ILUInt32).toNat = 0 := rfl
  have hdigit : (reduce d (stripZeros ws) d 0).2.2.toNat = droppedDigit (value ws) k := by
    rw [hlast, hzero, droppedDigit]
    split <;> rfl
  refine ⟨k, hreduces, ?_⟩
  have hup := roundsUp_spec roundMode (reduce d (stripZeros ws) d 0).2.2
    (pad (reduce d (stripZeros ws) d 0).1)
  rw [hdigit, value_pad, hvalue] at hup
  unfold normalize
  by_cases hempty : (stripZeros ws).length = 0
  · have hv : value ws = 0 := length_stripZeros_eq_zero.1 hempty
    have hdropped : droppedDigit 0 k = 0 := by
      unfold droppedDigit
      rw [Nat.zero_div, ite_self]
    dsimp only
    rw [if_pos hempty, hv, hdropped, Nat.zero_div, roundsDigit_zero, Bool.toNat_false]
    constructor
    · intro _
      exact ⟨_, _, rfl, trimmed_zero _⟩
    · intro hle
      norm_num at hle
  · have hfits : value ws / 10 ^ k < 2 ^ 96 ∨ d - k = 0 := by
      have hfits := hreduces.fits
      omega
    have hfuel : (d : Int).toNat = d := rfl
    have hrounded := rounded_spec hstrip (d - k) (hvalue ▸ hfits)
      (roundsDigit roundMode (droppedDigit (value ws) k) (value ws / 10 ^ k))
    rw [hvalue] at hrounded
    simp only [if_neg hempty, hfuel, hup, hdecpt]
    exact hrounded

end Pnet.Support.ILDecimal
