import Pnet.Lib.Radix
import Pnet.Support.Decimal

/-! What the word loops of the decimal numbers compute. -/
namespace Pnet.Support.ILDecimal
open Pnet.Lib BigEndian

variable {ws : List ILUInt32}

theorem value_lt (ws : List ILUInt32) : value ws < (2 ^ 32) ^ ws.length := by
  have hlt := Radix.value_lt ws.reverse
  rwa [List.length_reverse] at hlt

theorem eq_of_value_eq {xs ys : List ILUInt32} (hlength : xs.length = ys.length)
    (h : value xs = value ys) : xs = ys := by
  have hreverse : xs.reverse = ys.reverse := by
    apply Radix.eq_of_value_eq
    · rw [List.length_reverse, List.length_reverse, hlength]
    · exact h
  exact List.reverse_inj.1 hreverse

theorem value_replicate_zero (n : Nat) : value (List.replicate n (0 : ILUInt32)) = 0 := by
  unfold value
  rw [List.reverse_replicate]
  exact Radix.value_replicate_zero n

/-! ### Leading zeros -/

theorem stripZeros_eq (ws : List ILUInt32) : stripZeros ws = (Radix.trim ws.reverse).reverse := by
  unfold stripZeros Radix.trim List.rdropWhile
  rw [List.reverse_reverse, List.reverse_reverse]
  rfl

@[simp] theorem value_stripZeros (ws : List ILUInt32) : value (stripZeros ws) = value ws := by
  rw [stripZeros_eq]
  unfold value
  rw [List.reverse_reverse, Radix.value_trim]

theorem lt_length_stripZeros (ws : List ILUInt32) (n : Nat) :
    n < (stripZeros ws).length ↔ (2 ^ 32) ^ n ≤ value ws := by
  rw [stripZeros_eq, List.length_reverse, ← Radix.pow_le_value_iff (Radix.trimmed_trim _) n,
    Radix.value_trim]
  rfl

theorem length_stripZeros_le (ws : List ILUInt32) : (stripZeros ws).length ≤ ws.length :=
  (List.dropWhile_sublist _).length_le

theorem length_stripZeros_eq_zero : (stripZeros ws).length = 0 ↔ value ws = 0 := by
  have h := lt_length_stripZeros ws 0
  rw [Nat.pow_zero] at h
  omega

@[simp] theorem value_pad (ws : List ILUInt32) : value (pad ws) = value ws := by
  unfold pad
  rw [value_append, value_replicate_zero, Nat.mul_zero, Nat.zero_add]

theorem length_pad (ws : List ILUInt32) : (pad ws).length = max 3 ws.length := by
  unfold pad
  rw [List.length_append, List.length_replicate]
  omega

/-! ### Division by ten -/

theorem divByTenFrom_spec (ws : List ILUInt32) (remainder : ILUInt32)
    (hremainder : remainder.toNat < 10) :
    (divByTenFrom remainder ws).1.length = ws.length ∧
      (divByTenFrom remainder ws).2.toNat < 10 ∧
      value (divByTenFrom remainder ws).1 * 10 + (divByTenFrom remainder ws).2.toNat =
        (2 ^ 32) ^ ws.length * remainder.toNat + value ws := by
  induction ws generalizing remainder with
  | nil =>
    refine ⟨rfl, hremainder, ?_⟩
    simp [divByTenFrom]
  | cons word words ih =>
    have hword := word.isLt
    have hproduct : ((remainder.setWidth 64 <<< 32) + word.setWidth 64 : ILUInt64).toNat =
        remainder.toNat * 2 ^ 32 + word.toNat := by
      rw [BitVec.toNat_add, BitVec.toNat_shiftLeft, BitVec.toNat_setWidth, BitVec.toNat_setWidth,
        Nat.shiftLeft_eq]
      omega
    generalize hn : ((remainder.setWidth 64 <<< 32) + word.setWidth 64 : ILUInt64) = product
      at hproduct
    have hlow : ((product % 10).setWidth 32 : ILUInt32).toNat = product.toNat % 10 := by
      rw [BitVec.toNat_setWidth, BitVec.toNat_umod]
      show product.toNat % 10 % 2 ^ 32 = _
      omega
    have hhigh : ((product / 10).setWidth 32 : ILUInt32).toNat = product.toNat / 10 := by
      rw [BitVec.toNat_setWidth, BitVec.toNat_udiv]
      show product.toNat / 10 % 2 ^ 32 = _
      omega
    have hlt : ((product % 10).setWidth 32 : ILUInt32).toNat < 10 := by
      rw [hlow]
      omega
    obtain ⟨hlength, hrest, heq⟩ := ih _ hlt
    simp only [divByTenFrom, hn]
    refine ⟨by rw [List.length_cons, hlength, List.length_cons], hrest, ?_⟩
    rw [value_cons, value_cons, hlength, hhigh, List.length_cons, Nat.pow_succ, Nat.add_mul,
      Nat.add_assoc, heq, hlow]
    have hdiv := Nat.div_add_mod product.toNat 10
    calc (2 ^ 32) ^ words.length * (product.toNat / 10) * 10 +
          ((2 ^ 32) ^ words.length * (product.toNat % 10) + value words)
        = (2 ^ 32) ^ words.length * (10 * (product.toNat / 10) + product.toNat % 10) +
            value words := by ring
      _ = _ := by
        rw [hdiv, hproduct]
        ring

theorem length_divByTen (ws : List ILUInt32) : (divByTen ws).1.length = ws.length :=
  (divByTenFrom_spec ws 0 (by decide)).1

theorem value_divByTen (ws : List ILUInt32) :
    value (divByTen ws).1 = value ws / 10 ∧ (divByTen ws).2.toNat = value ws % 10 := by
  have hzero : (0 : ILUInt32).toNat = 0 := rfl
  obtain ⟨_, hlt, heq⟩ := divByTenFrom_spec ws 0 (by decide)
  rw [hzero, Nat.mul_zero, Nat.zero_add] at heq
  unfold divByTen
  omega

/-! ### Rounding up -/

theorem succCell (word : ILUInt32) :
    (word + 1).toNat + 2 ^ 32 * (decide (word + 1 = 0)).toNat = word.toNat + 1 := by
  by_cases hzero : word + 1 = 0
  · rw [decide_eq_true hzero, Bool.toNat_true]
    bv_omega
  · rw [decide_eq_false hzero, Bool.toNat_false]
    bv_omega

theorem addOne_spec (ws : List ILUInt32) : (addOne ws).1.length = ws.length ∧
    value (addOne ws).1 + (2 ^ 32) ^ ws.length * (addOne ws).2.toNat = value ws + 1 := by
  induction ws with
  | nil => exact ⟨rfl, rfl⟩
  | cons word words ih =>
    unfold addOne
    generalize addOne words = rest at ih
    obtain ⟨tail, carry⟩ := rest
    obtain ⟨hlength, heq⟩ := ih
    dsimp only at hlength heq ⊢
    cases carry with
    | false =>
      rw [Bool.toNat_false, Nat.mul_zero, Nat.add_zero] at heq
      rw [if_neg Bool.false_ne_true, List.length_cons, List.length_cons, value_cons, value_cons,
        hlength, heq, Bool.toNat_false, Nat.mul_zero]
      exact ⟨rfl, rfl⟩
    | true =>
      rw [Bool.toNat_true, Nat.mul_one] at heq
      have hcell := succCell word
      rw [if_pos rfl, List.length_cons, List.length_cons, value_cons, value_cons, hlength]
      refine ⟨rfl, ?_⟩
      calc (2 ^ 32) ^ words.length * (word + 1).toNat + value tail +
            (2 ^ 32) ^ (words.length + 1) * (decide (word + 1 = 0)).toNat
          = (2 ^ 32) ^ words.length *
              ((word + 1).toNat + 2 ^ 32 * (decide (word + 1 = 0)).toNat) + value tail := by ring
        _ = (2 ^ 32) ^ words.length * word.toNat + (value tail + (2 ^ 32) ^ words.length) := by
          rw [hcell]
          ring
        _ = _ := by
          rw [heq]
          ring

/-! ### Multiplication by powers of ten -/

theorem mulWords_spec (ws : List ILUInt32) (multiplier digit : ILUInt64)
    (hmultiplier : multiplier.toNat < 2 ^ 32) (hdigit : digit.toNat < 2 ^ 32) :
    (mulWords multiplier digit ws).1.length = ws.length ∧
      (mulWords multiplier digit ws).2.toNat < 2 ^ 32 ∧
      value (mulWords multiplier digit ws).1 +
          (2 ^ 32) ^ ws.length * (mulWords multiplier digit ws).2.toNat =
        value ws * multiplier.toNat + digit.toNat := by
  induction ws with
  | nil =>
    refine ⟨rfl, hdigit, ?_⟩
    simp [mulWords]
  | cons word words ih =>
    obtain ⟨hlength, hrest, heq⟩ := ih
    unfold mulWords
    generalize (mulWords multiplier digit words) = rest at hlength hrest heq
    have hword := word.isLt
    have hmul : word.toNat * multiplier.toNat ≤ (2 ^ 32 - 1) * (2 ^ 32 - 1) :=
      Nat.mul_le_mul (by omega) (by omega)
    have hproduct : (rest.2 + word.setWidth 64 * multiplier).toNat =
        rest.2.toNat + word.toNat * multiplier.toNat := by
      rw [BitVec.toNat_add, BitVec.toNat_mul, BitVec.toNat_setWidth,
        Nat.mod_eq_of_lt (by omega : word.toNat < 2 ^ 64), Nat.mod_eq_of_lt (by omega),
        Nat.mod_eq_of_lt (by omega)]
    generalize hn : rest.2 + word.setWidth 64 * multiplier = product at hproduct
    have hlow : (product.setWidth 32 : ILUInt32).toNat = product.toNat % 2 ^ 32 :=
      BitVec.toNat_setWidth ..
    have hhigh : (product >>> 32).toNat = product.toNat / 2 ^ 32 := by
      rw [BitVec.toNat_ushiftRight, Nat.shiftRight_eq_div_pow]
    dsimp only
    refine ⟨by rw [List.length_cons, hlength, List.length_cons], ?_, ?_⟩
    · rw [hn, hhigh, hproduct]
      omega
    · have hdiv := Nat.div_add_mod product.toNat (2 ^ 32)
      rw [hn, value_cons, value_cons, hlength, hhigh, hlow, List.length_cons, Nat.pow_succ]
      calc (2 ^ 32) ^ words.length * (product.toNat % 2 ^ 32) + value rest.1 +
            (2 ^ 32) ^ words.length * 2 ^ 32 * (product.toNat / 2 ^ 32)
          = (2 ^ 32) ^ words.length *
              (2 ^ 32 * (product.toNat / 2 ^ 32) + product.toNat % 2 ^ 32) + value rest.1 := by
            ring
        _ = (2 ^ 32) ^ words.length * (word.toNat * multiplier.toNat) +
              (value rest.1 + (2 ^ 32) ^ words.length * rest.2.toNat) := by
          rw [hdiv, hproduct]
          ring
        _ = _ := by
          rw [heq]
          ring

theorem powersOf10_getD {n : Nat} (hpos : 0 < n) (hle : n ≤ 9) :
    (powersOf10.getD (n - 1) 0).toNat = 10 ^ n := by
  revert hpos hle
  have hall : ∀ n ∈ List.range 10, 0 < n → (powersOf10.getD (n - 1) 0).toNat = 10 ^ n := by decide
  intro hpos hle
  exact hall n (List.mem_range.2 (by omega)) hpos

theorem length_mulPowers {digit : ILUInt64} (hdigit : digit.toNat < 2 ^ 32) (fuel : Nat)
    (ws : List ILUInt32) (power : Nat) : (mulPowers digit fuel ws power).1.length = ws.length := by
  induction fuel generalizing ws power with
  | zero => rfl
  | succ fuel ih =>
    unfold mulPowers
    by_cases hpower : power > 0
    · have hten := powersOf10_getD (n := min power 9) (by omega) (by omega)
      have hlt : 10 ^ min power 9 < 2 ^ 32 :=
        Nat.lt_of_le_of_lt (Nat.pow_le_pow_right (by omega) (Nat.min_le_right power 9)) (by norm_num)
      obtain ⟨hlength, _, _⟩ := mulWords_spec ws _ _ (hten.trans_lt hlt) hdigit
      rw [if_pos hpower]
      dsimp only
      split
      · rfl
      · rw [ih, hlength]
    · rw [if_neg hpower]

/-- Without a carry, the value is multiplied. -/
theorem mulPowers_spec (fuel : Nat) (ws : List ILUInt32) (power : Nat) (hfuel : power ≤ fuel)
    (hfits : value ws * 10 ^ power < (2 ^ 32) ^ ws.length) :
    (mulPowers 0 fuel ws power).2 = false ∧
      value (mulPowers 0 fuel ws power).1 = value ws * 10 ^ power := by
  induction fuel generalizing ws power with
  | zero =>
    have hzero : power = 0 := Nat.le_zero.1 hfuel
    subst hzero
    exact ⟨rfl, (Nat.mul_one _).symm⟩
  | succ fuel ih =>
    unfold mulPowers
    by_cases hpower : power > 0
    · have hten := powersOf10_getD (n := min power 9) (by omega) (by omega)
      have hlt : 10 ^ min power 9 < 2 ^ 32 :=
        Nat.lt_of_le_of_lt (Nat.pow_le_pow_right (by omega) (Nat.min_le_right power 9)) (by norm_num)
      obtain ⟨hlength, hcarry, heq⟩ :=
        mulWords_spec ws _ 0 (hten.trans_lt hlt) (by decide)
      rw [if_pos hpower]
      have hsplit : 10 ^ power = 10 ^ min power 9 * 10 ^ (power - 9) := by
        rw [← Nat.pow_add]
        congr 1
        omega
      have hle : 10 ^ min power 9 ≤ 10 ^ power := Nat.pow_le_pow_right (by omega) (Nat.min_le_left ..)
      have hfits' : value ws * 10 ^ min power 9 < (2 ^ 32) ^ ws.length :=
        (Nat.mul_le_mul_left _ hle).trans_lt hfits
      generalize mulWords (powersOf10.getD (min power 9 - 1) 0) 0 ws = product at hlength hcarry heq
      have hzero : (0 : ILUInt64).toNat = 0 := rfl
      rw [hten, hzero, Nat.add_zero] at heq
      have hnone : product.2.toNat = 0 := by
        by_contra hne
        have hge := Nat.mul_le_mul_left ((2 ^ 32) ^ ws.length) (Nat.one_le_iff_ne_zero.2 hne)
        omega
      have hproduct : product.2 = 0 := BitVec.eq_of_toNat_eq hnone
      rw [hnone, Nat.mul_zero, Nat.add_zero] at heq
      simp only [hproduct, ne_eq, not_true_eq_false, ↓reduceIte]
      rw [hsplit, ← Nat.mul_assoc, ← heq] at hfits ⊢
      rw [← hlength] at hfits
      exact ih product.1 (power - 9) (by omega) hfits
    · have hzero : power = 0 := by omega
      subst hzero
      rw [if_neg hpower]
      exact ⟨rfl, (Nat.mul_one _).symm⟩

theorem length_mulByPowOfTen (ws : List ILUInt32) (power : Nat) (digit : ILUInt32) :
    (mulByPowOfTen ws power digit).1.length = ws.length := by
  apply length_mulPowers
  rw [BitVec.toNat_setWidth]
  have hlt := digit.isLt
  omega

theorem value_mulByPowOfTen {power : Nat}
    (hfits : value ws * 10 ^ power < (2 ^ 32) ^ ws.length) :
    (mulByPowOfTen ws power 0).2 = false ∧
      value (mulByPowOfTen ws power 0).1 = value ws * 10 ^ power :=
  mulPowers_spec power ws power (Nat.le_refl _) hfits

/-- A digit is appended. -/
theorem value_mulByPowOfTen_digit (digit : ILUInt32)
    (hfits : value ws * 10 + digit.toNat < (2 ^ 32) ^ ws.length) :
    value (mulByPowOfTen ws 1 digit).1 = value ws * 10 + digit.toNat := by
  have hdigit : (digit.setWidth 64 : ILUInt64).toNat = digit.toNat := by
    rw [BitVec.toNat_setWidth]
    have hlt := digit.isLt
    omega
  have hten : (powersOf10.getD (min 1 9 - 1) 0).toNat = 10 := rfl
  obtain ⟨hlength, hcarry, heq⟩ := mulWords_spec ws (powersOf10.getD (min 1 9 - 1) 0)
    (digit.setWidth 64) (by rw [hten]; norm_num) (by rw [hdigit]; exact digit.isLt)
  unfold mulByPowOfTen mulPowers mulPowers
  generalize mulWords (powersOf10.getD (min 1 9 - 1) 0) (digit.setWidth 64) ws = product
    at hlength hcarry heq
  rw [hten, hdigit] at heq
  have hnone : product.2.toNat = 0 := by
    by_contra hne
    have hge := Nat.mul_le_mul_left ((2 ^ 32) ^ ws.length) (Nat.one_le_iff_ne_zero.2 hne)
    omega
  have hproduct : product.2 = 0 := BitVec.eq_of_toNat_eq hnone
  rw [hnone, Nat.mul_zero, Nat.add_zero] at heq
  simp only [hproduct, ne_eq, not_true_eq_false, ↓reduceIte]
  exact heq

/-! ### Addition, subtraction and comparison -/

theorem addCell (x y : ILUInt32) :
    (x + y).toNat + 2 ^ 32 * (decide (x + y < x)).toNat = x.toNat + y.toNat := by
  by_cases h : x + y < x
  · rw [decide_eq_true h, Bool.toNat_true]
    bv_omega
  · rw [decide_eq_false h, Bool.toNat_false]
    bv_omega

theorem addCell_carry (x y : ILUInt32) :
    (x + (y + 1)).toNat + 2 ^ 32 * (decide (x + (y + 1) ≤ x)).toNat = x.toNat + y.toNat + 1 := by
  by_cases h : x + (y + 1) ≤ x
  · rw [decide_eq_true h, Bool.toNat_true]
    bv_omega
  · rw [decide_eq_false h, Bool.toNat_false]
    bv_omega

theorem subCell (x y : ILUInt32) :
    (x - y).toNat + y.toNat = x.toNat + 2 ^ 32 * (decide (x - y > x)).toNat := by
  by_cases h : x - y > x
  · rw [decide_eq_true h, Bool.toNat_true]
    bv_omega
  · rw [decide_eq_false h, Bool.toNat_false]
    bv_omega

theorem subCell_borrow (x y : ILUInt32) :
    (x - (y + 1)).toNat + y.toNat + 1 =
      x.toNat + 2 ^ 32 * (decide (x - (y + 1) ≥ x)).toNat := by
  by_cases h : x - (y + 1) ≥ x
  · rw [decide_eq_true h, Bool.toNat_true]
    bv_omega
  · rw [decide_eq_false h, Bool.toNat_false]
    bv_omega

theorem addWords_spec {xs ys : List ILUInt32} (hlength : xs.length = ys.length) :
    (addWords xs ys).1.length = xs.length ∧
      value (addWords xs ys).1 + (2 ^ 32) ^ xs.length * (addWords xs ys).2.toNat =
        value xs + value ys := by
  induction xs generalizing ys with
  | nil =>
    cases ys with
    | nil => exact ⟨rfl, rfl⟩
    | cons y ys => cases hlength
  | cons x xs ih =>
    cases ys with
    | nil => cases hlength
    | cons y ys =>
      have hrest := ih (Nat.succ.inj hlength)
      unfold addWords
      generalize addWords xs ys = rest at hrest
      obtain ⟨zs, carry⟩ := rest
      obtain ⟨hzs, heq⟩ := hrest
      dsimp only at hzs heq ⊢
      have hxy : ys.length = xs.length := (Nat.succ.inj hlength).symm
      cases carry with
      | false =>
        have hcell := addCell x y
        rw [Bool.toNat_false, Nat.mul_zero, Nat.add_zero] at heq
        rw [if_neg Bool.false_ne_true, value_cons, value_cons, value_cons, List.length_cons,
          List.length_cons, hzs, hxy, heq]
        refine ⟨rfl, ?_⟩
        calc (2 ^ 32) ^ xs.length * (x + y).toNat + (value xs + value ys) +
              (2 ^ 32) ^ (xs.length + 1) * (decide (x + y < x)).toNat
            = (2 ^ 32) ^ xs.length * ((x + y).toNat + 2 ^ 32 * (decide (x + y < x)).toNat) +
                (value xs + value ys) := by ring
          _ = _ := by
            rw [hcell]
            ring
      | true =>
        have hcell := addCell_carry x y
        rw [Bool.toNat_true, Nat.mul_one] at heq
        rw [if_pos rfl, value_cons, value_cons, value_cons, List.length_cons, List.length_cons,
          hzs, hxy]
        refine ⟨rfl, ?_⟩
        calc (2 ^ 32) ^ xs.length * (x + (y + 1)).toNat + value zs +
              (2 ^ 32) ^ (xs.length + 1) * (decide (x + (y + 1) ≤ x)).toNat
            = (2 ^ 32) ^ xs.length *
                ((x + (y + 1)).toNat + 2 ^ 32 * (decide (x + (y + 1) ≤ x)).toNat) +
                value zs := by ring
          _ = (2 ^ 32) ^ xs.length * (x.toNat + y.toNat) +
                (value zs + (2 ^ 32) ^ xs.length) := by
            rw [hcell]
            ring
          _ = _ := by
            rw [heq]
            ring

theorem subWords_spec {xs ys : List ILUInt32} (hlength : xs.length = ys.length) :
    (subWords xs ys).1.length = xs.length ∧
      value (subWords xs ys).1 + value ys =
        value xs + (2 ^ 32) ^ xs.length * (subWords xs ys).2.toNat := by
  induction xs generalizing ys with
  | nil =>
    cases ys with
    | nil => exact ⟨rfl, rfl⟩
    | cons y ys => cases hlength
  | cons x xs ih =>
    cases ys with
    | nil => cases hlength
    | cons y ys =>
      have hrest := ih (Nat.succ.inj hlength)
      unfold subWords
      generalize subWords xs ys = rest at hrest
      obtain ⟨zs, borrow⟩ := rest
      obtain ⟨hzs, heq⟩ := hrest
      dsimp only at hzs heq ⊢
      have hxy : ys.length = xs.length := (Nat.succ.inj hlength).symm
      cases borrow with
      | false =>
        have hcell := subCell x y
        rw [Bool.toNat_false, Nat.mul_zero, Nat.add_zero] at heq
        rw [if_neg Bool.false_ne_true, value_cons, value_cons, value_cons, List.length_cons,
          List.length_cons, hzs, hxy]
        refine ⟨rfl, ?_⟩
        calc (2 ^ 32) ^ xs.length * (x - y).toNat + value zs +
              ((2 ^ 32) ^ xs.length * y.toNat + value ys)
            = (2 ^ 32) ^ xs.length * ((x - y).toNat + y.toNat) + (value zs + value ys) := by ring
          _ = _ := by
            rw [hcell, heq]
            ring
      | true =>
        have hcell := subCell_borrow x y
        rw [Bool.toNat_true, Nat.mul_one] at heq
        rw [if_pos rfl, value_cons, value_cons, value_cons, List.length_cons, List.length_cons,
          hzs, hxy]
        refine ⟨rfl, ?_⟩
        calc (2 ^ 32) ^ xs.length * (x - (y + 1)).toNat + value zs +
              ((2 ^ 32) ^ xs.length * y.toNat + value ys)
            = (2 ^ 32) ^ xs.length * ((x - (y + 1)).toNat + y.toNat) +
                (value zs + value ys) := by ring
          _ = (2 ^ 32) ^ xs.length * ((x - (y + 1)).toNat + y.toNat + 1) + value xs := by
            rw [heq]
            ring
          _ = _ := by
            rw [hcell]
            ring

/-- The words decide as the values do. -/
theorem cmpWords_spec (sign : Bool) {xs ys : List ILUInt32} (hlength : xs.length = ys.length) :
    cmpWords sign xs ys =
      if value xs > value ys then (if sign then -1 else 1)
      else if value xs < value ys then (if sign then 1 else -1) else 0 := by
  induction xs generalizing ys with
  | nil =>
    cases ys with
    | nil => rfl
    | cons y ys => cases hlength
  | cons x xs ih =>
    cases ys with
    | nil => cases hlength
    | cons y ys =>
      have hxs := value_lt xs
      have hys := value_lt ys
      have hxy : ys.length = xs.length := (Nat.succ.inj hlength).symm
      rw [hxy] at hys
      rw [cmpWords, value_cons, value_cons, hxy, ih hxy.symm]
      by_cases hgt : x > y
      · have hmul := Nat.mul_le_mul_left ((2 ^ 32) ^ xs.length)
          (show y.toNat + 1 ≤ x.toNat from hgt)
        rw [Nat.mul_succ] at hmul
        have hvalue : (2 ^ 32) ^ xs.length * x.toNat + value xs >
            (2 ^ 32) ^ xs.length * y.toNat + value ys := by omega
        rw [if_pos hgt, if_pos hvalue]
      · by_cases hlt : x < y
        · have hmul := Nat.mul_le_mul_left ((2 ^ 32) ^ xs.length)
            (show x.toNat + 1 ≤ y.toNat from hlt)
          rw [Nat.mul_succ] at hmul
          have hvalue : (2 ^ 32) ^ xs.length * x.toNat + value xs <
              (2 ^ 32) ^ xs.length * y.toNat + value ys := by omega
          rw [if_neg hgt, if_pos hlt, if_neg (Nat.lt_asymm hvalue), if_pos hvalue]
        · have heq : x = y := by bv_omega
          subst heq
          rw [if_neg hgt, if_neg hlt]
          simp only [gt_iff_lt, Nat.add_lt_add_iff_left]

/-! ### The values of decimals -/

/-- The value without sign and decimal point. -/
def mantissa (d : ILDecimal) : Nat := value d.words

variable {a b : ILDecimal}

theorem mantissa_lt (d : ILDecimal) : d.mantissa < 2 ^ 96 := by
  have hlt := value_lt d.words
  have hpow : (2 ^ 32) ^ d.words.length = 2 ^ 96 := (Nat.pow_mul 2 32 3).symm
  rwa [hpow] at hlt

theorem value_load (d : ILDecimal) : value d.load = d.mantissa := by
  unfold load mantissa
  rw [value_append]
  simp

theorem length_load (d : ILDecimal) : d.load.length = 6 := rfl

theorem value_scaled {d : ILDecimal} {power : Nat} (hpower : power ≤ 28) :
    value (mulByPowOfTen d.load power 0).1 = d.mantissa * 10 ^ power := by
  have hle : d.mantissa * 10 ^ power ≤ 2 ^ 96 * 10 ^ 28 :=
    Nat.mul_le_mul (Nat.le_of_lt (mantissa_lt d)) (Nat.pow_le_pow_right (by omega) hpower)
  have hfits : value d.load * 10 ^ power < (2 ^ 32) ^ d.load.length := by
    rw [value_load, length_load]
    exact hle.trans_lt (by norm_num)
  rw [(value_mulByPowOfTen hfits).2, value_load]

/-- The point that both are aligned to, and the values then. -/
theorem align_spec (ha : a.getPt ≤ 28) (hb : b.getPt ≤ 28) :
    (align a b).1.length = 6 ∧ (align a b).2.1.length = 6 ∧
      (align a b).2.2 = max a.getPt b.getPt ∧
      value (align a b).1 = a.mantissa * 10 ^ (max a.getPt b.getPt - a.getPt) ∧
      value (align a b).2.1 = b.mantissa * 10 ^ (max a.getPt b.getPt - b.getPt) := by
  unfold align
  by_cases hlt : a.getPt < b.getPt
  · have hmax : max a.getPt b.getPt = b.getPt := by omega
    rw [if_pos hlt, hmax, Nat.sub_self, Nat.pow_zero, Nat.mul_one]
    refine ⟨?_, rfl, rfl, value_scaled (by omega), value_load b⟩
    rw [length_mulByPowOfTen, length_load]
  · by_cases hgt : a.getPt > b.getPt
    · have hmax : max a.getPt b.getPt = a.getPt := by omega
      rw [if_neg hlt, if_pos hgt, hmax, Nat.sub_self, Nat.pow_zero, Nat.mul_one]
      refine ⟨rfl, ?_, rfl, value_load a, value_scaled (by omega)⟩
      rw [length_mulByPowOfTen, length_load]
    · have heq : a.getPt = b.getPt := by omega
      rw [if_neg hlt, if_neg hgt, heq, max_self, Nat.sub_self, Nat.pow_zero, Nat.mul_one,
        Nat.mul_one]
      exact ⟨rfl, rfl, rfl, value_load a, value_load b⟩

/-- A mantissa at a later decimal point. -/
def scaledTo (d : ILDecimal) (decpt : Nat) : Nat := d.mantissa * 10 ^ (decpt - d.getPt)

theorem scaledTo_lt {decpt : Nat} (hdecpt : decpt ≤ 28) (d : ILDecimal) :
    d.scaledTo decpt ≤ 2 ^ 96 * 10 ^ 28 :=
  Nat.mul_le_mul (Nat.le_of_lt (mantissa_lt d)) (Nat.pow_le_pow_right (by omega) (by omega))

section
variable (ha : a.getPt ≤ 28) (hb : b.getPt ≤ 28)
include ha hb

theorem addValues_spec : (addValues a b).2 = max a.getPt b.getPt ∧
    value (addValues a b).1 =
      a.scaledTo (max a.getPt b.getPt) + b.scaledTo (max a.getPt b.getPt) := by
  obtain ⟨hla, hlb, hpt, hva, hvb⟩ := align_spec ha hb
  obtain ⟨hlength, heq⟩ := addWords_spec (hla.trans hlb.symm)
  have hlea := scaledTo_lt (max_le ha hb) a
  have hleb := scaledTo_lt (max_le ha hb) b
  rw [hla, hva, hvb] at heq
  refine ⟨hpt, ?_⟩
  unfold scaledTo at hlea hleb ⊢
  show value (addWords (align a b).1 (align a b).2.1).1 = _
  cases hcarry : (addWords (align a b).1 (align a b).2.1).2 with
  | false =>
    rw [hcarry, Bool.toNat_false, Nat.mul_zero, Nat.add_zero] at heq
    exact heq
  | true =>
    rw [hcarry, Bool.toNat_true, Nat.mul_one] at heq
    have hbound : 2 ^ 96 * 10 ^ 28 + 2 ^ 96 * 10 ^ 28 < (2 ^ 32) ^ 6 := by norm_num
    omega

theorem subValues_spec (hle : b.scaledTo (max a.getPt b.getPt) ≤ a.scaledTo (max a.getPt b.getPt)) :
    (subValues a b).2 = max a.getPt b.getPt ∧
      value (subValues a b).1 =
        a.scaledTo (max a.getPt b.getPt) - b.scaledTo (max a.getPt b.getPt) := by
  obtain ⟨hla, hlb, hpt, hva, hvb⟩ := align_spec ha hb
  obtain ⟨hlength, heq⟩ := subWords_spec (hla.trans hlb.symm)
  have hlt := value_lt (subWords (align a b).1 (align a b).2.1).1
  rw [hlength, hla] at hlt
  rw [hla, hva, hvb] at heq
  refine ⟨hpt, ?_⟩
  unfold scaledTo at hle ⊢
  show value (subWords (align a b).1 (align a b).2.1).1 = _
  cases hborrow : (subWords (align a b).1 (align a b).2.1).2 with
  | false =>
    rw [hborrow, Bool.toNat_false, Nat.mul_zero, Nat.add_zero] at heq
    omega
  | true =>
    rw [hborrow, Bool.toNat_true, Nat.mul_one] at heq
    omega

theorem cmpAbs_spec (sign : Bool) : cmpAbs a b sign =
    if a.scaledTo (max a.getPt b.getPt) > b.scaledTo (max a.getPt b.getPt) then
      (if sign then -1 else 1)
    else if a.scaledTo (max a.getPt b.getPt) < b.scaledTo (max a.getPt b.getPt) then
      (if sign then 1 else -1)
    else 0 := by
  obtain ⟨hla, hlb, _, hva, hvb⟩ := align_spec ha hb
  unfold cmpAbs
  rw [cmpWords_spec sign (hla.trans hlb.symm), hva, hvb]
  rfl

end

/-! ### Multiplication -/

theorem propagate_spec (rs : List ILUInt32) (product : ILUInt64) (hproduct : product.toNat < 2 ^ 32)
    (hfits : Radix.value rs + product.toNat < (2 ^ 32) ^ rs.length) :
    (propagate rs product).length = rs.length ∧
      Radix.value (propagate rs product) = Radix.value rs + product.toNat := by
  induction rs generalizing product with
  | nil =>
    rw [Radix.value_nil, List.length_nil, Nat.pow_zero] at hfits
    rw [Radix.value_nil]
    exact ⟨rfl, by simp only [propagate, Radix.value_nil]; omega⟩
  | cons r rs ih =>
    unfold propagate
    by_cases hzero : product = 0
    · subst hzero
      rw [if_neg (by simp)]
      exact ⟨rfl, rfl⟩
    · have hr := r.isLt
      have hsum : (product + r.setWidth 64).toNat = product.toNat + r.toNat := by
        rw [BitVec.toNat_add, BitVec.toNat_setWidth]
        omega
      have hhigh : ((product + r.setWidth 64) >>> 32).toNat =
          (product.toNat + r.toNat) / 2 ^ 32 := by
        rw [BitVec.toNat_ushiftRight, Nat.shiftRight_eq_div_pow, hsum]
      have hlow : ((product + r.setWidth 64).setWidth 32 : ILUInt32).toNat =
          (product.toNat + r.toNat) % 2 ^ 32 := by
        rw [BitVec.toNat_setWidth, hsum]
      have hdiv := Nat.div_add_mod (product.toNat + r.toNat) (2 ^ 32)
      rw [Radix.value_cons, List.length_cons, pow_succ (2 ^ 32) rs.length] at hfits
      have hlt : ((product + r.setWidth 64) >>> 32).toNat < 2 ^ 32 := by
        rw [hhigh]
        omega
      have hrest : Radix.value rs + ((product + r.setWidth 64) >>> 32).toNat <
          (2 ^ 32) ^ rs.length := by
        rw [hhigh]
        apply Nat.lt_of_mul_lt_mul_left (a := 2 ^ 32)
        rw [Nat.mul_add, Nat.mul_comm _ ((2 ^ 32) ^ rs.length)]
        omega
      obtain ⟨hlength, heq⟩ := ih _ hlt hrest
      rw [if_pos hzero, Radix.value_cons, Radix.value_cons, List.length_cons, List.length_cons,
        hlength, heq, hhigh, hlow]
      refine ⟨rfl, ?_⟩
      rw [Nat.mul_add]
      omega

theorem mulAddWords_spec (w : ILUInt32) (rs as : List ILUInt32) (hlength : as.length ≤ rs.length)
    (product : ILUInt64) (hproduct : product.toNat < 2 ^ 32)
    (hfits : Radix.value rs + w.toNat * Radix.value as + product.toNat < (2 ^ 32) ^ rs.length) :
    (mulAddWords w rs as product).length = rs.length ∧
      Radix.value (mulAddWords w rs as product) =
        Radix.value rs + w.toNat * Radix.value as + product.toNat := by
  induction as generalizing rs product with
  | nil =>
    rw [Radix.value_nil, Nat.mul_zero, Nat.add_zero] at hfits ⊢
    cases rs with
    | nil => exact propagate_spec [] _ hproduct hfits
    | cons r rs => exact propagate_spec (r :: rs) _ hproduct hfits
  | cons a as ih =>
    cases rs with
    | nil => cases hlength
    | cons r rs =>
      have hr := r.isLt
      have ha := a.isLt
      have hw := w.isLt
      have hmul : a.toNat * w.toNat ≤ (2 ^ 32 - 1) * (2 ^ 32 - 1) :=
        Nat.mul_le_mul (by omega) (by omega)
      have hsum : (product + a.setWidth 64 * w.setWidth 64 + r.setWidth 64).toNat =
          product.toNat + a.toNat * w.toNat + r.toNat := by
        rw [BitVec.toNat_add, BitVec.toNat_add, BitVec.toNat_mul, BitVec.toNat_setWidth,
          BitVec.toNat_setWidth, BitVec.toNat_setWidth,
          Nat.mod_eq_of_lt (by omega : a.toNat < 2 ^ 64),
          Nat.mod_eq_of_lt (by omega : w.toNat < 2 ^ 64),
          Nat.mod_eq_of_lt (by omega : r.toNat < 2 ^ 64),
          Nat.mod_eq_of_lt (by omega : a.toNat * w.toNat < 2 ^ 64),
          Nat.mod_eq_of_lt (by omega : product.toNat + a.toNat * w.toNat < 2 ^ 64),
          Nat.mod_eq_of_lt (by omega)]
      unfold mulAddWords
      generalize product + a.setWidth 64 * w.setWidth 64 + r.setWidth 64 = sum at hsum
      have hhigh : (sum >>> 32).toNat = sum.toNat / 2 ^ 32 := by
        rw [BitVec.toNat_ushiftRight, Nat.shiftRight_eq_div_pow]
      have hlow : (sum.setWidth 32 : ILUInt32).toNat = sum.toNat % 2 ^ 32 := BitVec.toNat_setWidth ..
      have hdiv := Nat.div_add_mod sum.toNat (2 ^ 32)
      rw [Radix.value_cons, Radix.value_cons, List.length_cons, pow_succ (2 ^ 32) rs.length] at hfits
      have htotal : r.toNat + 2 ^ 32 * Radix.value rs + w.toNat * (a.toNat + 2 ^ 32 * Radix.value as) +
          product.toNat = 2 ^ 32 * (Radix.value rs + w.toNat * Radix.value as + sum.toNat / 2 ^ 32) +
            sum.toNat % 2 ^ 32 := by
        calc _ = (product.toNat + a.toNat * w.toNat + r.toNat) +
              2 ^ 32 * (Radix.value rs + w.toNat * Radix.value as) := by ring
          _ = (2 ^ 32 * (sum.toNat / 2 ^ 32) + sum.toNat % 2 ^ 32) +
              2 ^ 32 * (Radix.value rs + w.toNat * Radix.value as) := by rw [hdiv, hsum]
          _ = _ := by ring
      have hlt : (sum >>> 32).toNat < 2 ^ 32 := by
        rw [hhigh]
        omega
      have hless : Radix.value rs + w.toNat * Radix.value as + (sum >>> 32).toNat <
          (2 ^ 32) ^ rs.length := by
        rw [hhigh]
        apply Nat.lt_of_mul_lt_mul_left (a := 2 ^ 32)
        rw [Nat.mul_comm _ ((2 ^ 32) ^ rs.length)]
        omega
      obtain ⟨hrest, heq⟩ := ih rs (Nat.le_of_succ_le_succ hlength) _ hlt hless
      dsimp only
      rw [Radix.value_cons, Radix.value_cons, Radix.value_cons, List.length_cons,
        List.length_cons, hrest, heq, hhigh, hlow]
      refine ⟨rfl, ?_⟩
      rw [htotal]
      omega

theorem mulByWord_spec (result : List ILUInt32) (hlength : result.length = 6) (base : Nat)
    (hlow : 2 ≤ base) (hbase : base ≤ 5) (d : ILDecimal) (w : ILUInt32)
    (hfits : value result + (2 ^ 32) ^ (5 - base) * (w.toNat * d.mantissa) < (2 ^ 32) ^ 6) :
    (mulByWord result base d w).length = 6 ∧
      value (mulByWord result base d w) =
        value result + (2 ^ 32) ^ (5 - base) * (w.toNat * d.mantissa) := by
  have htake : (result.take (base + 1)).length = base + 1 := by
    rw [List.length_take, hlength]
    omega
  have hdrop : (result.drop (base + 1)).length = 5 - base := by
    rw [List.length_drop, hlength]
    omega
  have hvalue : value result = (2 ^ 32) ^ (5 - base) * value (result.take (base + 1)) +
      value (result.drop (base + 1)) := by
    rw [← hdrop, ← value_append, List.take_append_drop]
  have hsix : (2 ^ 32) ^ 6 = (2 ^ 32) ^ (5 - base) * (2 ^ 32) ^ (base + 1) := by
    rw [← Nat.pow_add]
    congr 1
    omega
  have hmantissa : Radix.value d.words.reverse = d.mantissa := rfl
  have hupper : Radix.value (result.take (base + 1)).reverse = value (result.take (base + 1)) := rfl
  have hzero : (0 : ILUInt64).toNat = 0 := rfl
  obtain ⟨hlen, heq⟩ := mulAddWords_spec w (result.take (base + 1)).reverse d.words.reverse
    (by rw [List.length_reverse, List.length_reverse, htake]; exact Nat.succ_le_succ hlow) 0
    (by decide) (by
      rw [List.length_reverse, htake, hmantissa, hupper, hzero, Nat.add_zero]
      apply Nat.lt_of_mul_lt_mul_left (a := (2 ^ 32) ^ (5 - base))
      rw [hvalue] at hfits
      rw [← hsix, Nat.mul_add]
      exact Nat.lt_of_le_of_lt (by omega) hfits)
  rw [hmantissa, hupper, hzero, Nat.add_zero] at heq
  unfold mulByWord
  constructor
  · rw [List.length_append, List.length_reverse, hlen, List.length_reverse, htake, hdrop]
    omega
  · rw [value_append, hdrop]
    show (2 ^ 32) ^ (5 - base) * Radix.value (mulAddWords w _ _ 0).reverse.reverse + _ = _
    rw [List.reverse_reverse, heq, hvalue]
    ring

theorem mulValues_spec (a b : ILDecimal) :
    value (mulValues a b) = a.mantissa * b.mantissa := by
  have hb : b.mantissa = 2 ^ 64 * b.high.toNat + 2 ^ 32 * b.middle.toNat + b.low.toNat := by
    unfold mantissa words
    simp only [value_cons, value_nil, List.length_cons, List.length_nil]
    ring
  have hprod : a.mantissa * b.mantissa < (2 ^ 32) ^ 6 :=
    (Nat.mul_lt_mul'' (mantissa_lt a) (mantissa_lt b)).trans_eq (by norm_num)
  have hsum : b.low.toNat * a.mantissa + 2 ^ 32 * (b.middle.toNat * a.mantissa) +
      (2 ^ 32) ^ 2 * (b.high.toNat * a.mantissa) = a.mantissa * b.mantissa := by
    rw [hb]
    ring
  have hzero : value [0, 0, 0, 0, 0, (0 : ILUInt32)] = 0 := value_replicate_zero 6
  obtain ⟨hlength₁, heq₁⟩ := mulByWord_spec [0, 0, 0, 0, 0, 0] rfl 5 (by omega) (by omega) a
    b.low (by
      rw [hzero, Nat.sub_self, Nat.pow_zero]
      omega)
  obtain ⟨hlength₂, heq₂⟩ := mulByWord_spec _ hlength₁ 4 (by omega) (by omega) a b.middle (by
      rw [heq₁, hzero, Nat.sub_self, Nat.pow_zero]
      omega)
  obtain ⟨_, heq₃⟩ := mulByWord_spec _ hlength₂ 3 (by omega) (by omega) a b.high (by
      rw [heq₂, heq₁, hzero, Nat.sub_self, Nat.pow_zero]
      omega)
  unfold mulValues
  rw [heq₃, heq₂, heq₁, hzero, Nat.sub_self, Nat.pow_zero]
  omega

end Pnet.Support.ILDecimal
