import Pnet.Support.DecimalWords
import Pnet.Support.Words

/-! What the long division of decimals computes. The correction of a quotient digit that was
estimated too large goes wrong, so the quotient is right when no digit is. -/
namespace Pnet.Support.ILDecimal
open Pnet.Lib BigEndian

/-! ### Shifts -/

theorem shiftLeft_spec {shift : Nat} (hshift : shift < 32) (ws : List ILUInt32) :
    (shiftLeft shift ws).1.length = ws.length ∧ (shiftLeft shift ws).2.toNat < 2 ^ shift ∧
      value (shiftLeft shift ws).1 + (2 ^ 32) ^ ws.length * (shiftLeft shift ws).2.toNat =
        value ws * 2 ^ shift := by
  induction ws with
  | nil =>
    refine ⟨rfl, Nat.two_pow_pos shift, ?_⟩
    simp [shiftLeft]
  | cons word words ih =>
    obtain ⟨hlength, hcarry, heq⟩ := ih
    have hword := word.isLt
    have hpow : 2 ^ shift < 2 ^ 32 := Nat.pow_lt_pow_right (by omega) hshift
    have hmul : word.toNat * 2 ^ shift + 2 ^ shift ≤ 2 ^ 32 * 2 ^ shift := by
      rw [← Nat.succ_mul]
      exact Nat.mul_le_mul_right _ hword
    have htag : (word.setWidth 64 <<< shift : ILUInt64).toNat = word.toNat * 2 ^ shift := by
      rw [Bits.toNat_shiftLeft_of_lt, toNat_word64]
      rw [toNat_word64]
      omega
    unfold shiftLeft
    dsimp only
    generalize shiftLeft shift words = rest at hlength hcarry heq
    have hsum : (rest.2 ||| (word.setWidth 64 <<< shift)).toNat =
        rest.2.toNat + word.toNat * 2 ^ shift := by
      rw [Bits.toNat_or_tag _ _ shift hcarry (by rw [htag, Nat.mul_mod_left]), htag]
    generalize (rest.2 ||| (word.setWidth 64 <<< shift)) = carry at hsum
    have hdiv := Nat.div_add_mod carry.toNat (2 ^ 32)
    rw [List.length_cons, List.length_cons, value_cons, value_cons, hlength, toNat_low, toNat_high]
    refine ⟨rfl, Nat.div_lt_of_lt_mul (by omega), ?_⟩
    calc (2 ^ 32) ^ words.length * (carry.toNat % 2 ^ 32) + value rest.1 +
          (2 ^ 32) ^ (words.length + 1) * (carry.toNat / 2 ^ 32)
        = (2 ^ 32) ^ words.length * (2 ^ 32 * (carry.toNat / 2 ^ 32) + carry.toNat % 2 ^ 32) +
            value rest.1 := by ring
      _ = (2 ^ 32) ^ words.length * (word.toNat * 2 ^ shift) +
            (value rest.1 + (2 ^ 32) ^ words.length * rest.2.toNat) := by
        rw [hdiv, hsum]
        ring
      _ = _ := by
        rw [heq]
        ring

/-- The shift brings the first bit that is set to the top. -/
theorem shiftOf_spec (fuel : Nat) (word : ILUInt32) (hfuel : 2 ^ 32 ≤ word.toNat * 2 ^ fuel) :
    shiftOf fuel word < fuel ∧ 2 ^ 31 ≤ word.toNat * 2 ^ shiftOf fuel word ∧
      word.toNat * 2 ^ shiftOf fuel word < 2 ^ 32 := by
  have hword := word.isLt
  induction fuel generalizing word with
  | zero =>
    rw [Nat.pow_zero, Nat.mul_one] at hfuel
    omega
  | succ fuel ih =>
    have htop : word &&& 0x80000000 = 0 ↔ word.toNat < 2 ^ 31 := by
      have htwoPow : (0x80000000 : ILUInt32) = BitVec.twoPow 32 31 := by decide
      rw [htwoPow, BitVec.and_twoPow, ← BitVec.msb_eq_getLsbD_last, BitVec.msb_eq_decide]
      rcases Nat.lt_or_ge word.toNat (2 ^ 31) with hlt | hge
      · rw [decide_eq_false (Nat.not_le.2 hlt), if_neg Bool.false_ne_true]
        exact iff_of_true rfl hlt
      · rw [decide_eq_true hge, if_pos rfl]
        exact iff_of_false (by decide) (Nat.not_lt.2 hge)
    unfold shiftOf
    by_cases hzero : word &&& 0x80000000 = 0
    · have hlt := htop.1 hzero
      have hdouble : (word <<< 1).toNat = word.toNat * 2 :=
        Bits.toNat_shiftLeft_of_lt _ _ (by omega)
      obtain ⟨hless, hge, hbelow⟩ := ih (word <<< 1)
        (by rwa [hdouble, Nat.mul_assoc, ← Nat.pow_succ']) (word <<< 1).isLt
      rw [hdouble, Nat.mul_assoc, ← Nat.pow_succ'] at hge hbelow
      rw [if_pos hzero]
      exact ⟨Nat.succ_lt_succ hless, hge, hbelow⟩
    · have hge := Nat.le_of_not_lt fun h => hzero (htop.2 h)
      rw [if_neg hzero, Nat.pow_zero, Nat.mul_one]
      exact ⟨Nat.succ_pos fuel, hge, hword⟩

/-! ### One digit -/

/-- A multiple is subtracted from the words that stand over the divisor; the words after them
stay as they are. -/
theorem mulSubWords_spec (c : ILUInt32) (bs as : List ILUInt32) (hlength : bs.length ≤ as.length) :
    (mulSubWords c as bs).1.length = as.length ∧ (mulSubWords c as bs).2.toNat < 2 ^ 32 ∧
      value (mulSubWords c as bs).1 +
          (2 ^ 32) ^ (as.length - bs.length) * (c.toNat * value bs) =
        value as + (2 ^ 32) ^ as.length * (mulSubWords c as bs).2.toNat := by
  induction bs generalizing as with
  | nil =>
    have hnil : mulSubWords c as [] = (as, 0) := by cases as <;> rfl
    rw [hnil]
    refine ⟨rfl, Nat.two_pow_pos 32, ?_⟩
    simp
  | cons b bs ih =>
    cases as with
    | nil => cases hlength
    | cons a as =>
      have hle := Nat.le_of_succ_le_succ hlength
      obtain ⟨hlen, hborrow, heq⟩ := ih as hle
      have hmul := mul_word_le c b
      unfold mulSubWords
      dsimp only
      generalize mulSubWords c as bs = rest at hlen hborrow heq
      have hcarry := toNat_mulAdd rest.2 b c hborrow
      generalize rest.2 + b.setWidth 64 * c.setWidth 64 = carry at hcarry
      have hlow := toNat_low carry
      have hhigh := toNat_high carry
      have hdiv := Nat.div_add_mod carry.toNat (2 ^ 32)
      generalize (carry.setWidth 32 : ILUInt32) = low at hlow
      have hsplit : as.length + 1 - (bs.length + 1) = as.length - bs.length := by omega
      have hpow : (2 ^ 32) ^ as.length = (2 ^ 32) ^ (as.length - bs.length) * (2 ^ 32) ^ bs.length := by
        rw [← Nat.pow_add, Nat.sub_add_cancel hle]
      -- what the word and the next borrow are together
      have hcell : (a - low).toNat + carry.toNat =
            a.toNat + 2 ^ 32 * (if a - low > a then (carry >>> 32) + 1 else carry >>> 32).toNat ∧
          (if a - low > a then (carry >>> 32) + 1 else carry >>> 32).toNat < 2 ^ 32 := by
        by_cases hgt : a - low > a
        · have hnext : ((carry >>> 32) + 1).toNat = carry.toNat / 2 ^ 32 + 1 := by
            rw [BitVec.toNat_add, hhigh]
            show (carry.toNat / 2 ^ 32 + 1) % 2 ^ 64 = _
            omega
          have hsub : (a - low).toNat + low.toNat = a.toNat + 2 ^ 32 := by bv_omega
          have hpos : 0 < low.toNat := by bv_omega
          rw [if_pos hgt, hnext]
          omega
        · have hsub : (a - low).toNat + low.toNat = a.toNat := by bv_omega
          rw [if_neg hgt, hhigh]
          omega
      generalize (if a - low > a then (carry >>> 32) + 1 else carry >>> 32) = next at hcell
      rw [List.length_cons, List.length_cons, List.length_cons, hlen, value_cons, value_cons,
        value_cons, hlen, hsplit]
      refine ⟨rfl, hcell.2, ?_⟩
      calc (2 ^ 32) ^ as.length * (a - low).toNat + value rest.1 +
            (2 ^ 32) ^ (as.length - bs.length) *
              (c.toNat * ((2 ^ 32) ^ bs.length * b.toNat + value bs))
          = (2 ^ 32) ^ as.length * (a - low).toNat +
              (2 ^ 32) ^ (as.length - bs.length) * (2 ^ 32) ^ bs.length * (c.toNat * b.toNat) +
              (value rest.1 + (2 ^ 32) ^ (as.length - bs.length) * (c.toNat * value bs)) := by
            ring
        _ = (2 ^ 32) ^ as.length * ((a - low).toNat + (rest.2.toNat + c.toNat * b.toNat)) +
              value as := by
          rw [heq, ← hpow]
          ring
        _ = _ := by
          rw [← hcarry, hcell.1, Nat.pow_succ]
          ring

theorem mulAndSub_spec (c : ILUInt32) {as bs : List ILUInt32} (hlength : bs.length < as.length) :
    (mulAndSub as bs c).1.length = as.length ∧
      value (mulAndSub as bs c).1 +
          (2 ^ 32) ^ (as.length - 1 - bs.length) * (c.toNat * value bs) =
        value as + (2 ^ 32) ^ as.length * (mulAndSub as bs c).2.toNat := by
  cases as with
  | nil => cases hlength
  | cons a as =>
    obtain ⟨hlen, hborrow, heq⟩ := mulSubWords_spec c bs as (Nat.le_of_lt_succ hlength)
    unfold mulAndSub
    dsimp only
    generalize mulSubWords c as bs = rest at hlen hborrow heq
    have hlow := toNat_low rest.2
    have hhigh := toNat_high rest.2
    rw [Nat.mod_eq_of_lt hborrow] at hlow
    have hnone : rest.2 >>> 32 = 0 := by
      apply BitVec.eq_of_toNat_eq
      rw [hhigh, Nat.div_eq_of_lt hborrow]
      rfl
    generalize (rest.2.setWidth 32 : ILUInt32) = low at hlow
    have hflag : decide ((if a - low > a then (rest.2 >>> 32) + 1 else rest.2 >>> 32) ≠ 0) =
        decide (a - low > a) := by
      rw [hnone]
      split
      · simp [*]
      · simp [*]
    have hcell : (a - low).toNat + low.toNat =
        a.toNat + 2 ^ 32 * (decide (a - low > a)).toNat := by
      by_cases hgt : a - low > a
      · rw [decide_eq_true hgt, Bool.toNat_true]
        bv_omega
      · rw [decide_eq_false hgt, Bool.toNat_false]
        bv_omega
    rw [hflag, List.length_cons, List.length_cons, hlen, Nat.add_sub_cancel, value_cons, value_cons,
      hlen]
    refine ⟨rfl, ?_⟩
    calc (2 ^ 32) ^ as.length * (a - low).toNat + value rest.1 +
          (2 ^ 32) ^ (as.length - bs.length) * (c.toNat * value bs)
        = (2 ^ 32) ^ as.length * (a - low).toNat +
            (value rest.1 + (2 ^ 32) ^ (as.length - bs.length) * (c.toNat * value bs)) := by ring
      _ = (2 ^ 32) ^ as.length * ((a - low).toNat + low.toNat) + value as := by
        rw [heq, hlow]
        ring
      _ = _ := by
        rw [hcell, Nat.pow_succ]
        ring

theorem addBackWords_spec (bs as : List ILUInt32) (hlength : bs.length ≤ as.length) :
    (addBackWords as bs).1.length = as.length ∧ (addBackWords as bs).2.toNat ≤ 1 ∧
      value (addBackWords as bs).1 + (2 ^ 32) ^ as.length * (addBackWords as bs).2.toNat =
        value as + (2 ^ 32) ^ (as.length - bs.length) * value bs := by
  induction bs generalizing as with
  | nil =>
    have hnil : addBackWords as [] = (as, 0) := by cases as <;> rfl
    rw [hnil]
    refine ⟨rfl, Nat.zero_le 1, ?_⟩
    simp
  | cons b bs ih =>
    cases as with
    | nil => cases hlength
    | cons a as =>
      have hle := Nat.le_of_succ_le_succ hlength
      obtain ⟨hlen, hcarry, heq⟩ := ih as hle
      have ha := a.isLt
      have hb := b.isLt
      unfold addBackWords
      dsimp only
      generalize addBackWords as bs = rest at hlen hcarry heq
      have hsum : (rest.2 + (a.setWidth 64 + b.setWidth 64)).toNat =
          rest.2.toNat + (a.toNat + b.toNat) := by
        rw [BitVec.toNat_add, BitVec.toNat_add, toNat_word64, toNat_word64]
        omega
      generalize rest.2 + (a.setWidth 64 + b.setWidth 64) = sum at hsum
      have hdiv := Nat.div_add_mod sum.toNat (2 ^ 32)
      have hsplit : as.length + 1 - (bs.length + 1) = as.length - bs.length := by omega
      have hpow : (2 ^ 32) ^ as.length = (2 ^ 32) ^ (as.length - bs.length) * (2 ^ 32) ^ bs.length := by
        rw [← Nat.pow_add, Nat.sub_add_cancel hle]
      rw [List.length_cons, List.length_cons, List.length_cons, hlen, value_cons, value_cons,
        value_cons, hlen, hsplit, toNat_low, toNat_high]
      refine ⟨rfl, by omega, ?_⟩
      calc (2 ^ 32) ^ as.length * (sum.toNat % 2 ^ 32) + value rest.1 +
            (2 ^ 32) ^ (as.length + 1) * (sum.toNat / 2 ^ 32)
          = (2 ^ 32) ^ as.length * (2 ^ 32 * (sum.toNat / 2 ^ 32) + sum.toNat % 2 ^ 32) +
              value rest.1 := by ring
        _ = (2 ^ 32) ^ as.length * (a.toNat + b.toNat) +
              (value rest.1 + (2 ^ 32) ^ as.length * rest.2.toNat) := by
          rw [hdiv, hsum]
          ring
        _ = (2 ^ 32) ^ as.length * a.toNat +
              (2 ^ 32) ^ (as.length - bs.length) * (2 ^ 32) ^ bs.length * b.toNat +
              (value as + (2 ^ 32) ^ (as.length - bs.length) * value bs) := by
          rw [heq, ← hpow]
          ring
        _ = _ := by ring

theorem addBack_spec {as bs : List ILUInt32} (hlength : bs.length < as.length) :
    (addBack as bs).1.length = as.length ∧
      value (addBack as bs).1 + (2 ^ 32) ^ as.length * (addBack as bs).2.toNat =
        value as + (2 ^ 32) ^ (as.length - 1 - bs.length) * value bs := by
  cases as with
  | nil => cases hlength
  | cons a as =>
    obtain ⟨hlen, hcarry, heq⟩ := addBackWords_spec bs as (Nat.le_of_lt_succ hlength)
    have ha := a.isLt
    unfold addBack
    dsimp only
    generalize addBackWords as bs = rest at hlen hcarry heq
    have hsum : (rest.2 + a.setWidth 64).toNat = rest.2.toNat + a.toNat := by
      rw [BitVec.toNat_add, toNat_word64]
      omega
    generalize rest.2 + a.setWidth 64 = sum at hsum
    have hdiv := Nat.div_add_mod sum.toNat (2 ^ 32)
    have hhigh := toNat_high sum
    have hflag : (decide (sum >>> 32 ≠ 0)).toNat = sum.toNat / 2 ^ 32 := by
      by_cases hzero : sum >>> 32 = 0
      · rw [hzero] at hhigh
        rw [decide_eq_false (not_not.2 hzero), ← hhigh]
        rfl
      · have hne : sum.toNat / 2 ^ 32 ≠ 0 := by
          intro h
          rw [h] at hhigh
          exact hzero (BitVec.eq_of_toNat_eq hhigh)
        rw [decide_eq_true hzero, Bool.toNat_true]
        omega
    rw [hflag, List.length_cons, List.length_cons, hlen, Nat.add_sub_cancel, value_cons, value_cons,
      hlen, toNat_low]
    refine ⟨rfl, ?_⟩
    calc (2 ^ 32) ^ as.length * (sum.toNat % 2 ^ 32) + value rest.1 +
          (2 ^ 32) ^ (as.length + 1) * (sum.toNat / 2 ^ 32)
        = (2 ^ 32) ^ as.length * (2 ^ 32 * (sum.toNat / 2 ^ 32) + sum.toNat % 2 ^ 32) +
            value rest.1 := by ring
      _ = (2 ^ 32) ^ as.length * a.toNat +
            (value rest.1 + (2 ^ 32) ^ as.length * rest.2.toNat) := by
        rw [hdiv, hsum]
        ring
      _ = _ := by
        rw [heq]
        ring

/-- An estimate that is too large ends in the wrong digit, after two rounds at most: where one
is enough, the carry out of it is taken for a number that is still negative. -/
theorem addBackLoop_spec {bs out : List ILUInt32} {r q : Nat} {testquot : ILUInt32}
    (hlength : bs.length < out.length) (hbs : value bs ≠ 0)
    (hq : q = r / ((2 ^ 32) ^ (out.length - 1 - bs.length) * value bs))
    (hlarge : q < testquot.toNat)
    (hout : value out + (2 ^ 32) ^ (out.length - 1 - bs.length) * (testquot.toNat * value bs) =
      r + (2 ^ 32) ^ out.length) :
    ∃ result, addBackLoop bs 2 out testquot true = some result ∧
      result.1.length = out.length ∧ result.2.toNat ≠ q := by
  obtain ⟨hlen, heq⟩ := addBack_spec hlength
  obtain ⟨hlen', heq'⟩ := addBack_spec (hlength.trans_eq hlen.symm)
  rw [hlen] at hlen' heq'
  have hweight : 2 * ((2 ^ 32) ^ (out.length - 1 - bs.length) * value bs) ≤
      (2 ^ 32) ^ out.length := by
    have hlt := value_lt bs
    have hpow : (2 ^ 32) ^ out.length =
        2 ^ 32 * ((2 ^ 32) ^ (out.length - 1 - bs.length) * (2 ^ 32) ^ bs.length) := by
      rw [← Nat.pow_add, ← Nat.pow_succ']
      congr 1
      omega
    rw [hpow]
    exact Nat.mul_le_mul (by norm_num) (Nat.mul_le_mul_left _ (Nat.le_of_lt hlt))
  have hpos : 0 < (2 ^ 32) ^ (out.length - 1 - bs.length) * value bs :=
    Nat.mul_pos (Nat.pow_pos (Nat.two_pow_pos 32)) (Nat.pos_of_ne_zero hbs)
  rw [Nat.mul_left_comm] at hout
  generalize (2 ^ 32) ^ (out.length - 1 - bs.length) * value bs = d at hq hout heq heq' hweight hpos
  have hlt := value_lt (addBack out bs).1
  rw [hlen] at hlt
  obtain ⟨e, he⟩ : ∃ e, testquot.toNat = e + 1 := ⟨testquot.toNat - 1, by omega⟩
  have hpred : (testquot - 1).toNat = e := by bv_omega
  rw [he, Nat.succ_mul] at hout
  rw [addBackLoop]
  cases hflag : (addBack out bs).2 with
  | false =>
    rw [hflag, Bool.toNat_false, Nat.mul_zero, Nat.add_zero] at heq
    rw [addBackLoop]
    refine ⟨_, rfl, hlen, ?_⟩
    rw [hpred]
    have hless : q < e := by
      rw [hq]
      exact Nat.div_lt_of_lt_mul (by rw [Nat.mul_comm]; omega)
    omega
  | true =>
    rw [hflag, Bool.toNat_true, Nat.mul_one] at heq
    have hrest : value (addBack out bs).1 + e * d = r := by omega
    have hqe : q = e := by
      have hle : e ≤ q := by
        rw [hq]
        exact (Nat.le_div_iff_mul_le hpos).2 (by omega)
      omega
    have hsmall : value (addBack out bs).1 < d := by
      have hmod := Nat.lt_div_mul_add hpos (a := r)
      rw [← hq, hqe] at hmod
      omega
    have hdone : (addBack (addBack out bs).1 bs).2 = false := by
      cases hcase : (addBack (addBack out bs).1 bs).2 with
      | false => rfl
      | true =>
        rw [hcase, Bool.toNat_true] at heq'
        omega
    rw [addBackLoop, hdone, addBackLoop]
    refine ⟨_, rfl, hlen', ?_⟩
    have hword := testquot.isLt
    bv_omega

/-- The digit that the first two words of `p` and the first of `d` suggest, where `d` has
`size` words and `p` one more. -/
def estimate (d size p : Nat) : Nat :=
  min (2 ^ 32 - 1) (p / (2 ^ 32) ^ (size - 1) / (d / (2 ^ 32) ^ (size - 1)))

theorem div_le_estimate {d size p : Nat} (hd : (2 ^ 32) ^ (size - 1) ≤ d) (hp : p < d * 2 ^ 32) :
    p / d ≤ estimate d size p := by
  have hweight : 0 < (2 ^ 32) ^ (size - 1) := Nat.pow_pos (Nat.two_pow_pos 32)
  have hone : 0 < d / (2 ^ 32) ^ (size - 1) := Nat.div_pos hd hweight
  have hword : p / d < 2 ^ 32 := Nat.div_lt_of_lt_mul hp
  apply Nat.le_min.2
  refine ⟨by omega, ?_⟩
  rw [Nat.div_div_eq_div_mul]
  exact Nat.div_le_div_left (Nat.mul_div_le d _) (Nat.mul_pos hweight hone)

theorem testQuot_spec {a₀ a₁ b₀ : ILUInt32} (as bs : List ILUInt32) (hb : b₀ ≠ 0) :
    (testQuot (a₀ :: a₁ :: as) (b₀ :: bs)).toNat =
      min (2 ^ 32 - 1) ((a₀.toNat * 2 ^ 32 + a₁.toNat) / b₀.toNat) := by
  have ha := a₀.isLt
  have hpos : 0 < b₀.toNat := Nat.pos_of_ne_zero fun h => hb (BitVec.eq_of_toNat_eq h)
  unfold testQuot
  show (if a₀ ≥ b₀ then _ else _ : ILUInt32).toNat = _
  by_cases hge : a₀ ≥ b₀
  · have hlarge : 2 ^ 32 ≤ (a₀.toNat * 2 ^ 32 + a₁.toNat) / b₀.toNat := by
      rw [Nat.le_div_iff_mul_le hpos, Nat.mul_comm]
      exact (Nat.mul_le_mul_right _ hge).trans (Nat.le_add_right _ _)
    rw [if_pos hge, Nat.min_eq_left (by omega)]
    rfl
  · have hlt : a₀.toNat + 1 ≤ b₀.toNat := Nat.lt_of_not_le hge
    have hsmall : (a₀.toNat * 2 ^ 32 + a₁.toNat) / b₀.toNat < 2 ^ 32 := by
      have ha₁ := a₁.isLt
      apply Nat.div_lt_of_lt_mul
      have hmul := Nat.mul_le_mul_right (2 ^ 32) hlt
      omega
    have hshift := toNat_shiftIn (a₀.setWidth 64) a₁
    rw [toNat_word64, Nat.mod_eq_of_lt ha] at hshift
    rw [if_neg hge, Nat.min_eq_right (by omega), toNat_low, BitVec.toNat_udiv]
    show (((a₀.setWidth 64 <<< 32) ||| a₁.setWidth 64 : ILUInt64).toNat /
      (b₀.setWidth 64 : ILUInt64).toNat) % 2 ^ 32 = _
    rw [hshift, toNat_word64, Nat.mod_eq_of_lt hsmall]

/-- Over as many words as the quotient has left, the estimate is that of the values. -/
theorem testQuot_eq_estimate {as bs : List ILUInt32} {limit : Nat}
    (hlength : as.length = limit + 1 + bs.length) (htop : bs.headD 0 ≠ 0) :
    (testQuot as bs).toNat =
      estimate (value bs) bs.length (value as / (2 ^ 32) ^ limit) := by
  cases bs with
  | nil => exact absurd rfl htop
  | cons b₀ bs =>
    have hb : b₀ ≠ 0 := htop
    rw [List.length_cons] at hlength
    obtain ⟨a₀, as, rfl⟩ := List.exists_cons_of_length_pos (show 0 < as.length by omega)
    rw [List.length_cons] at hlength
    obtain ⟨a₁, as, rfl⟩ := List.exists_cons_of_length_pos (show 0 < as.length by omega)
    rw [List.length_cons] at hlength
    have htail : as.length = limit + bs.length := by omega
    have hweight : 0 < (2 ^ 32) ^ as.length := Nat.pow_pos (Nat.two_pow_pos 32)
    have hdividend : value (a₀ :: a₁ :: as) / (2 ^ 32) ^ limit / (2 ^ 32) ^ bs.length =
        a₀.toNat * 2 ^ 32 + a₁.toNat := by
      have hsplit : (2 ^ 32) ^ as.length * 2 ^ 32 * a₀.toNat +
          ((2 ^ 32) ^ as.length * a₁.toNat + value as) =
          value as + (2 ^ 32) ^ as.length * (a₀.toNat * 2 ^ 32 + a₁.toNat) := by ring
      rw [Nat.div_div_eq_div_mul, ← Nat.pow_add, ← htail, value_cons, value_cons, List.length_cons,
        Nat.pow_succ, hsplit, Nat.add_mul_div_left _ _ hweight, Nat.div_eq_of_lt (value_lt as),
        Nat.zero_add]
    have hdivisor : value (b₀ :: bs) / (2 ^ 32) ^ bs.length = b₀.toNat := by
      rw [value_cons, Nat.add_comm, Nat.add_mul_div_left _ _ (Nat.pow_pos (Nat.two_pow_pos 32)),
        Nat.div_eq_of_lt (value_lt bs), Nat.zero_add]
    unfold estimate
    rw [testQuot_spec as bs hb, List.length_cons, Nat.add_sub_cancel, hdividend, hdivisor]

/-! ### The loop -/

/-- No digit of the quotient is estimated too large. -/
def EstimatesFit (n d size limit : Nat) : Prop :=
  ∀ i < limit, estimate d size (n % (d * (2 ^ 32) ^ (i + 1)) / (2 ^ 32) ^ i) * d ≤
    n % (d * (2 ^ 32) ^ (i + 1)) / (2 ^ 32) ^ i

theorem estimatesFit_succ {n d size limit : Nat} (hn : n < d * (2 ^ 32) ^ (limit + 1)) :
    EstimatesFit n d size (limit + 1) ↔
      estimate d size (n / (2 ^ 32) ^ limit) * d ≤ n / (2 ^ 32) ^ limit ∧
        EstimatesFit (n % (d * (2 ^ 32) ^ limit)) d size limit := by
  have hmod : ∀ i < limit, n % (d * (2 ^ 32) ^ limit) % (d * (2 ^ 32) ^ (i + 1)) =
      n % (d * (2 ^ 32) ^ (i + 1)) := by
    intro i hi
    exact Nat.mod_mod_of_dvd n (Nat.mul_dvd_mul_left d (Nat.pow_dvd_pow _ hi))
  constructor
  · intro h
    have hfirst := h limit (Nat.lt_succ_self limit)
    rw [Nat.mod_eq_of_lt hn] at hfirst
    refine ⟨hfirst, ?_⟩
    intro i hi
    rw [hmod i hi]
    exact h i (Nat.lt_succ_of_lt hi)
  · rintro ⟨hfirst, hrest⟩ i hi
    rcases Nat.lt_succ_iff_lt_or_eq.1 hi with hlt | rfl
    · have hi' := hrest i hlt
      rwa [hmod i hlt] at hi'
    · rwa [Nat.mod_eq_of_lt hn]

/-- One digit of the quotient: it is right when its estimate fits. -/
theorem divideStep_spec {as bs : List ILUInt32} {limit : Nat}
    (hlength : as.length = limit + 1 + bs.length) (htop : bs.headD 0 ≠ 0) (hbs : value bs ≠ 0) :
    let subtracted := mulAndSub as bs (testQuot as bs)
    let p := value as / (2 ^ 32) ^ limit
    ∃ corrected, addBackLoop bs 2 subtracted.1 (testQuot as bs) subtracted.2 = some corrected ∧
      corrected.1.length = as.length ∧
      (estimate (value bs) bs.length p * value bs ≤ p →
        corrected.2.toNat = estimate (value bs) bs.length p ∧
        value corrected.1 + (2 ^ 32) ^ limit * (corrected.2.toNat * value bs) = value as) ∧
      (¬estimate (value bs) bs.length p * value bs ≤ p → corrected.2.toNat ≠ p / value bs) := by
  have hshort : bs.length < as.length := by omega
  have hsub : as.length - 1 - bs.length = limit := by omega
  obtain ⟨hlen, heq⟩ := mulAndSub_spec (testQuot as bs) hshort
  have hest := testQuot_eq_estimate hlength htop
  have hweight : 0 < (2 ^ 32) ^ limit := Nat.pow_pos (Nat.two_pow_pos 32)
  have hlt := value_lt (mulAndSub as bs (testQuot as bs)).1
  have hpos := Nat.pos_of_ne_zero hbs
  dsimp only
  rw [← hest]
  rw [hsub] at heq
  rw [hlen] at hlt
  -- the product fits below the window exactly when the digits above do
  have hfits : (testQuot as bs).toNat * value bs ≤ value as / (2 ^ 32) ^ limit ↔
      (2 ^ 32) ^ limit * ((testQuot as bs).toNat * value bs) ≤ value as := by
    rw [Nat.le_div_iff_mul_le hweight, Nat.mul_comm]
  rw [hfits]
  cases hflag : (mulAndSub as bs (testQuot as bs)).2 with
  | false =>
    rw [hflag, Bool.toNat_false, Nat.mul_zero, Nat.add_zero] at heq
    rw [addBackLoop]
    refine ⟨_, rfl, hlen, fun _ => ⟨rfl, heq⟩, ?_⟩
    intro hnot
    omega
  | true =>
    rw [hflag, Bool.toNat_true, Nat.mul_one] at heq
    have hnot : ¬(2 ^ 32) ^ limit * ((testQuot as bs).toNat * value bs) ≤ value as := by omega
    have hlarge : value as / ((2 ^ 32) ^ limit * value bs) < (testQuot as bs).toNat := by
      apply Nat.div_lt_of_lt_mul
      rw [Nat.mul_assoc, Nat.mul_comm (value bs)]
      omega
    rw [← hlen] at hshort hsub
    obtain ⟨result, hresult, hresultLength, hwrong⟩ := addBackLoop_spec hshort hbs rfl
      (by rwa [hsub]) (by rw [hsub, heq, hlen])
    rw [hsub] at hwrong
    refine ⟨result, hresult, hresultLength.trans hlen, fun h => absurd h hnot, fun _ => ?_⟩
    rwa [Nat.div_div_eq_div_mul]

theorem value_tail_of_lt {ws : List ILUInt32} {n : Nat} (hlength : ws.length = n + 1)
    (hlt : value ws < (2 ^ 32) ^ n) : value ws.tail = value ws := by
  obtain ⟨word, words, rfl⟩ := List.exists_cons_of_length_eq_add_one hlength
  rw [List.length_cons] at hlength
  have hwords : words.length = n := Nat.succ.inj hlength
  rw [value_cons, hwords] at hlt ⊢
  have hzero : word.toNat = 0 := by
    by_contra hne
    have hle := Nat.mul_le_mul_left ((2 ^ 32) ^ n) (Nat.one_le_iff_ne_zero.2 hne)
    omega
  rw [hzero, Nat.mul_zero, Nat.zero_add]
  rfl

/-- The loop always ends, and its quotient is right when no digit is estimated too large. -/
theorem divideLoop_spec {bs : List ILUInt32} (htop : bs.headD 0 ≠ 0) (hbs : value bs ≠ 0)
    (hd : (2 ^ 32) ^ (bs.length - 1) ≤ value bs) (limit : Nat) (as : List ILUInt32)
    (hlength : as.length = limit + bs.length) :
    ∃ quotient, divideLoop bs limit as = some quotient ∧ quotient.length = limit ∧
      (value as < value bs * (2 ^ 32) ^ limit →
        (value quotient = value as / value bs ↔
          EstimatesFit (value as) (value bs) bs.length limit)) := by
  have hpos := Nat.pos_of_ne_zero hbs
  induction limit generalizing as with
  | zero =>
    refine ⟨[], rfl, rfl, ?_⟩
    intro hlt
    rw [Nat.pow_zero, Nat.mul_one] at hlt
    rw [Nat.div_eq_of_lt hlt, value_nil]
    exact iff_of_true rfl (fun i hi => absurd hi (Nat.not_lt_zero i))
  | succ limit ih =>
    obtain ⟨corrected, hcorrected, hlen, hright, hwrong⟩ := divideStep_spec hlength htop hbs
    have htail : corrected.1.tail.length = limit + bs.length := by
      rw [List.length_tail, hlen, hlength]
      omega
    obtain ⟨quotient, hquotient, hquotientLength, hvalue⟩ := ih corrected.1.tail htail
    have hloop : divideLoop bs (limit + 1) as = some (corrected.2 :: quotient) := by
      unfold divideLoop
      dsimp only
      rw [hcorrected]
      show (divideLoop bs limit corrected.1.tail).bind _ = _
      rw [hquotient]
      rfl
    refine ⟨_, hloop, by rw [List.length_cons, hquotientLength], ?_⟩
    intro hlt
    have hq := value_lt quotient
    have hweight : 0 < (2 ^ 32) ^ limit := Nat.pow_pos (Nat.two_pow_pos 32)
    rw [hquotientLength] at hq
    rw [estimatesFit_succ hlt, value_cons, hquotientLength]
    by_cases hfit : estimate (value bs) bs.length (value as / (2 ^ 32) ^ limit) * value bs ≤
        value as / (2 ^ 32) ^ limit
    · obtain ⟨hdigit, hrest⟩ := hright hfit
      have hless : value as / (2 ^ 32) ^ limit < value bs * 2 ^ 32 := by
        apply Nat.div_lt_of_lt_mul
        rwa [Nat.mul_left_comm, ← Nat.pow_succ]
      have hexact : corrected.2.toNat = value as / (value bs * (2 ^ 32) ^ limit) := by
        rw [hdigit, Nat.mul_comm (value bs), ← Nat.div_div_eq_div_mul]
        exact Nat.le_antisymm ((Nat.le_div_iff_mul_le hpos).2 hfit) (div_le_estimate hd hless)
      have hmod : value corrected.1 = value as % (value bs * (2 ^ 32) ^ limit) := by
        have hdiv := Nat.div_add_mod (value as) (value bs * (2 ^ 32) ^ limit)
        have hmul : value bs * (2 ^ 32) ^ limit * corrected.2.toNat =
            (2 ^ 32) ^ limit * (corrected.2.toNat * value bs) := by ring
        rw [← hexact, hmul] at hdiv
        omega
      have hsmall : value as % (value bs * (2 ^ 32) ^ limit) < value bs * (2 ^ 32) ^ limit :=
        Nat.mod_lt _ (Nat.mul_pos hpos hweight)
      have hnext : value corrected.1.tail = value as % (value bs * (2 ^ 32) ^ limit) := by
        rw [← hmod]
        apply value_tail_of_lt (hlen.trans (hlength.trans (Nat.add_right_comm _ _ _)))
        rw [hmod, Nat.pow_add, Nat.mul_comm ((2 ^ 32) ^ limit)]
        exact hsmall.trans_le (Nat.mul_le_mul_right _ (Nat.le_of_lt (value_lt bs)))
      have hquot : value as / value bs = (2 ^ 32) ^ limit * corrected.2.toNat +
          value as % (value bs * (2 ^ 32) ^ limit) / value bs := by
        have hdiv := Nat.div_add_mod (value as) (value bs * (2 ^ 32) ^ limit)
        rw [← hexact, Nat.mul_assoc] at hdiv
        conv_lhs => rw [← hdiv, Nat.mul_add_div hpos]
      have hiff := hvalue (by rw [hnext]; exact hsmall)
      rw [hnext] at hiff
      rw [hquot, Nat.add_left_cancel_iff, hiff]
      exact (and_iff_right hfit).symm
    · apply iff_of_false
      · intro heq
        apply hwrong hfit
        have hdigit : ((2 ^ 32) ^ limit * corrected.2.toNat + value quotient) / (2 ^ 32) ^ limit =
            corrected.2.toNat := by
          rw [Nat.mul_add_div hweight, Nat.div_eq_of_lt hq, Nat.add_zero]
        rw [← hdigit, heq, Nat.div_div_eq_div_mul, Nat.div_div_eq_div_mul, Nat.mul_comm]
      · exact fun h => hfit h.1

/-! ### The whole division -/

theorem headD_ne_zero {ws : List ILUInt32} (hne : ws.length ≠ 0)
    (hle : (2 ^ 32) ^ (ws.length - 1) ≤ value ws) : ws.headD 0 ≠ 0 := by
  obtain ⟨word, words, rfl⟩ := List.exists_cons_of_length_pos (Nat.pos_of_ne_zero hne)
  rw [List.length_cons, Nat.add_sub_cancel, value_cons] at hle
  intro hzero
  rw [List.headD_cons] at hzero
  rw [hzero] at hle
  have hlt := value_lt words
  have hnone : (0 : ILUInt32).toNat = 0 := rfl
  rw [hnone, Nat.mul_zero, Nat.zero_add] at hle
  omega

/-- The number of words of a divisor, and the shift that sets its first bit. -/
def divisorSize (valueb : ILDecimal) : Nat := (stripZeros valueb.words).length

def divisorShift (valueb : ILDecimal) : Nat := shiftOf 32 ((stripZeros valueb.words).headD 0)

/-- No digit of the quotient of the shifted mantissas is estimated too large. -/
def EstimatesRight (valuea valueb : ILDecimal) : Prop :=
  EstimatesFit (valuea.mantissa * 10 ^ 29 * 2 ^ valueb.divisorShift)
    (valueb.mantissa * 2 ^ valueb.divisorShift) valueb.divisorSize (7 - valueb.divisorSize)

variable {a b : ILDecimal}

theorem divisor_spec (hb : b.mantissa ≠ 0) : b.divisorSize ≠ 0 ∧ b.divisorSize ≤ 3 ∧
    b.divisorShift < 32 ∧
    (shiftLeft b.divisorShift (stripZeros b.words)).1.length = b.divisorSize ∧
    value (shiftLeft b.divisorShift (stripZeros b.words)).1 = b.mantissa * 2 ^ b.divisorShift ∧
    2 ^ 31 * (2 ^ 32) ^ (b.divisorSize - 1) ≤ b.mantissa * 2 ^ b.divisorShift := by
  have hsize : b.divisorSize ≠ 0 := fun h => hb (length_stripZeros_eq_zero.1 h)
  have hthree : b.divisorSize ≤ 3 := length_stripZeros_le b.words
  have hlow := (lt_length_stripZeros b.words (b.divisorSize - 1)).1
    (Nat.sub_lt (Nat.pos_of_ne_zero hsize) Nat.one_pos)
  have hvalue : value (stripZeros b.words) = b.mantissa := value_stripZeros b.words
  have hhead := headD_ne_zero hsize (by rw [hvalue]; exact hlow)
  unfold divisorSize divisorShift at *
  generalize stripZeros b.words = ws at *
  obtain ⟨word, words, rfl⟩ := List.exists_cons_of_length_pos (Nat.pos_of_ne_zero hsize)
  rw [List.headD_cons] at hhead ⊢
  rw [List.length_cons, Nat.add_sub_cancel] at hlow ⊢
  have hword : 0 < word.toNat := Nat.pos_of_ne_zero fun h => hhead (BitVec.eq_of_toNat_eq h)
  obtain ⟨hshift, hge, hlt⟩ := shiftOf_spec 32 word (Nat.le_mul_of_pos_left _ hword)
  obtain ⟨hlength, _, heq⟩ := shiftLeft_spec hshift (word :: words)
  generalize shiftOf 32 word = shift at *
  rw [hvalue, List.length_cons] at heq
  rw [value_cons] at hvalue
  have hwords := value_lt words
  -- the first word has room for one more bit pattern of its shift
  have hroom : (word.toNat + 1) * 2 ^ shift ≤ 2 ^ 32 := by
    have hpow : 2 ^ 32 = 2 ^ (32 - shift) * 2 ^ shift := by
      rw [← Nat.pow_add, Nat.sub_add_cancel (Nat.le_of_lt hshift)]
    rw [hpow] at hlt ⊢
    exact Nat.mul_le_mul_right _ (Nat.lt_of_mul_lt_mul_right hlt)
  have hfits : b.mantissa * 2 ^ shift < (2 ^ 32) ^ (words.length + 1) := by
    calc b.mantissa * 2 ^ shift < ((2 ^ 32) ^ words.length * (word.toNat + 1)) * 2 ^ shift := by
          apply Nat.mul_lt_mul_of_pos_right _ (Nat.two_pow_pos shift)
          rw [Nat.mul_succ]
          omega
      _ = (2 ^ 32) ^ words.length * ((word.toNat + 1) * 2 ^ shift) := Nat.mul_assoc ..
      _ ≤ _ := by
        rw [Nat.pow_succ]
        exact Nat.mul_le_mul_left _ hroom
  have hnone : (shiftLeft shift (word :: words)).2.toNat = 0 := by
    by_contra hne
    have hle := Nat.mul_le_mul_left ((2 ^ 32) ^ (words.length + 1)) (Nat.one_le_iff_ne_zero.2 hne)
    omega
  rw [hnone, Nat.mul_zero, Nat.add_zero] at heq
  refine ⟨Nat.succ_ne_zero _, hthree, hshift, hlength, heq, ?_⟩
  calc 2 ^ 31 * (2 ^ 32) ^ words.length ≤ word.toNat * 2 ^ shift * (2 ^ 32) ^ words.length :=
        Nat.mul_le_mul_right _ hge
    _ = (2 ^ 32) ^ words.length * word.toNat * 2 ^ shift := by ring
    _ ≤ b.mantissa * 2 ^ shift := Nat.mul_le_mul_right _ (by omega)

theorem dividend_spec {shift : Nat} (hshift : shift < 32)
    (hroom : a.mantissa * 10 ^ 29 < 2 ^ 192) :
    value (shiftLeft shift a.dividend).1 = a.mantissa * 10 ^ 29 * 2 ^ shift := by
  have hpow : (2 ^ 32) ^ 6 = 2 ^ 192 := (Nat.pow_mul 2 32 6).symm
  have hfits : value a.load * 10 ^ 29 < (2 ^ 32) ^ a.load.length := by
    rwa [value_load, length_load, hpow]
  have hvalue : value a.dividend = a.mantissa * 10 ^ 29 := by
    unfold dividend
    rw [value_cons, (value_mulByPowOfTen hfits).2, value_load]
    exact Nat.zero_add _
  obtain ⟨_, _, heq⟩ := shiftLeft_spec hshift a.dividend
  have hlength : a.dividend.length = 7 := by
    unfold dividend
    rw [List.length_cons, length_mulByPowOfTen, length_load]
  have hsmall : a.mantissa * 10 ^ 29 * 2 ^ shift < (2 ^ 32) ^ 7 := by
    calc a.mantissa * 10 ^ 29 * 2 ^ shift < 2 ^ 192 * 2 ^ shift :=
          Nat.mul_lt_mul_of_pos_right hroom (Nat.two_pow_pos shift)
      _ ≤ 2 ^ 192 * 2 ^ 32 := Nat.mul_le_mul_left _ (Nat.pow_le_pow_right (by omega) (by omega))
      _ = _ := by norm_num
  rw [hvalue, hlength] at heq
  have hnone : (shiftLeft shift a.dividend).2.toNat = 0 := by
    by_contra hne
    have hle := Nat.mul_le_mul_left ((2 ^ 32) ^ 7) (Nat.one_le_iff_ne_zero.2 hne)
    omega
  rwa [hnone, Nat.mul_zero, Nat.add_zero] at heq

/-- The division always ends; where the shifted dividend has room, its quotient is right when
no digit is estimated too large. -/
theorem divide_spec (a : ILDecimal) (hb : b.mantissa ≠ 0) :
    ∃ quotient, divide a b = some quotient ∧
      (a.mantissa * 10 ^ 29 < 2 ^ 192 →
        (value quotient = a.mantissa * 10 ^ 29 / b.mantissa ↔ EstimatesRight a b)) := by
  obtain ⟨hsize, hthree, hshift, hlength, hvalue, hlow⟩ := divisor_spec hb
  have hdividend : (shiftLeft b.divisorShift a.dividend).1.length = 7 := by
    rw [(shiftLeft_spec hshift a.dividend).1, dividend, List.length_cons, length_mulByPowOfTen,
      length_load]
  have hd : (2 ^ 32) ^ ((shiftLeft b.divisorShift (stripZeros b.words)).1.length - 1) ≤
      value (shiftLeft b.divisorShift (stripZeros b.words)).1 := by
    rw [hlength, hvalue]
    exact (Nat.le_mul_of_pos_left _ (by norm_num)).trans hlow
  have htop := headD_ne_zero (by rwa [hlength]) hd
  have hne : value (shiftLeft b.divisorShift (stripZeros b.words)).1 ≠ 0 := by
    rw [hvalue]
    exact Nat.mul_ne_zero hb (Nat.ne_of_gt (Nat.two_pow_pos _))
  obtain ⟨quotient, hquotient, _, hexact⟩ := divideLoop_spec htop hne hd (7 - b.divisorSize)
    (shiftLeft b.divisorShift a.dividend).1 (by rw [hdividend, hlength]; omega)
  refine ⟨List.replicate b.divisorSize 0 ++ quotient, ?_, ?_⟩
  · unfold divide
    dsimp only
    have hstripped : (stripZeros b.words).length ≠ 0 := hsize
    rw [if_neg hstripped]
    show (divideLoop (shiftLeft b.divisorShift (stripZeros b.words)).1
      (7 - (shiftLeft b.divisorShift (stripZeros b.words)).1.length)
      (shiftLeft b.divisorShift a.dividend).1).map
        (List.replicate (shiftLeft b.divisorShift (stripZeros b.words)).1.length 0 ++ ·) = _
    rw [hlength, hquotient]
    rfl
  · intro hroom
    have hpos := Nat.two_pow_pos b.divisorShift
    rw [dividend_spec hshift hroom, hvalue, hlength, Nat.mul_div_mul_right _ _ hpos] at hexact
    rw [value_append, value_replicate_zero, Nat.mul_zero, Nat.zero_add]
    apply hexact
    calc a.mantissa * 10 ^ 29 * 2 ^ b.divisorShift < 2 ^ 192 * 2 ^ b.divisorShift :=
          Nat.mul_lt_mul_of_pos_right hroom hpos
      _ ≤ 2 ^ 192 * 2 ^ 31 := Nat.mul_le_mul_left _ (Nat.pow_le_pow_right (by omega) (by omega))
      _ = 2 ^ 31 * ((2 ^ 32) ^ (b.divisorSize - 1) * (2 ^ 32) ^ (7 - b.divisorSize)) := by
        have hsum : b.divisorSize - 1 + (7 - b.divisorSize) = 6 := by omega
        rw [← Nat.pow_add (2 ^ 32), hsum]
        norm_num
      _ ≤ _ := by
        rw [← Nat.mul_assoc]
        exact Nat.mul_le_mul_right _ hlow

end Pnet.Support.ILDecimal
