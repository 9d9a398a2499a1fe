import Pnet.Support.BigNum

/-! Comparison, signed addition and signed subtraction of big numbers without a
modulus: each operation is exact on the represented integers and returns a
normalized number. -/
namespace Pnet.Support
open Pnet.Lib

/-! ### Single words -/

theorem addCell (x y : ILUInt32) :
    (x + y).toNat + 2 ^ 32 * (if x + y < x then true else false).toNat = x.toNat + y.toNat := by
  split <;> simp only [Bool.toNat_false, Bool.toNat_true] <;> bv_omega

theorem addCell_carry (x y : ILUInt32) :
    (x + y + 1).toNat + 2 ^ 32 * (if x + y + 1 > x then false else true).toNat =
      x.toNat + y.toNat + 1 := by
  split <;> simp only [Bool.toNat_false, Bool.toNat_true] <;> bv_omega

theorem succCell (x : ILUInt32) :
    (x + 1).toNat + 2 ^ 32 * (if x + 1 ≠ 0 then false else true).toNat = x.toNat + 1 := by
  split <;> simp only [Bool.toNat_false, Bool.toNat_true] <;> bv_omega

theorem subCell (x y : ILUInt32) :
    (x - y).toNat + y.toNat = x.toNat + 2 ^ 32 * (if x - y > x then true else false).toNat := by
  split <;> simp only [Bool.toNat_false, Bool.toNat_true] <;> bv_omega

theorem subCell_borrow (x y : ILUInt32) :
    (x - y - 1).toNat + y.toNat + 1 =
      x.toNat + 2 ^ 32 * (if x - y - 1 < x then false else true).toNat := by
  split <;> simp only [Bool.toNat_false, Bool.toNat_true] <;> bv_omega

theorem predCell (x : ILUInt32) :
    (x - 1).toNat + 1 =
      x.toNat + 2 ^ 32 * (if x - 1 ≠ maxUInt32 then false else true).toNat := by
  unfold maxUInt32
  split <;> simp only [Bool.toNat_false, Bool.toNat_true] <;> bv_omega

/-! ### Carry and borrow chains -/

theorem value_carryWords (xs : List ILUInt32) (carry : Bool) :
    Radix.value (carryWords xs carry) = Radix.value xs + carry.toNat := by
  induction xs generalizing carry with
  | nil => cases carry <;> simp [carryWords]
  | cons x xs ih =>
    cases carry with
    | false => simp [carryWords, ih]
    | true =>
      have hcell := succCell x
      simp only [carryWords, ↓reduceIte, Radix.value_cons, ih, Bool.toNat_true]
      omega

theorem value_addWords (xs ys : List ILUInt32) (carry : Bool) :
    Radix.value (addWords xs ys carry) = Radix.value xs + Radix.value ys + carry.toNat := by
  induction xs generalizing ys carry with
  | nil => cases ys <;> simp [addWords, value_carryWords]
  | cons x xs ih =>
    cases ys with
    | nil => simp [addWords, value_carryWords]
    | cons y ys =>
      cases carry with
      | false =>
        have hcell := addCell x y
        simp only [addWords, Bool.false_eq_true, ↓reduceIte, Radix.value_cons, ih,
          Bool.toNat_false]
        omega
      | true =>
        have hcell := addCell_carry x y
        simp only [addWords, ↓reduceIte, Radix.value_cons, ih, Bool.toNat_true]
        omega

theorem length_subWords (xs ys : List ILUInt32) (borrow : Bool) :
    (subWords xs ys borrow).length = xs.length := by
  induction xs generalizing ys borrow with
  | nil => simp [subWords]
  | cons x xs ih => cases ys <;> cases borrow <;> simp [subWords, ih]

/-- What is missing after the last word is the borrow that left it. -/
theorem value_subWords (xs ys : List ILUInt32) (borrow : Bool) (hlen : ys.length ≤ xs.length) :
    ∃ out : Nat, Radix.value (subWords xs ys borrow) + Radix.value ys + borrow.toNat =
      Radix.value xs + (2 ^ 32) ^ xs.length * out := by
  induction xs generalizing ys borrow with
  | nil =>
    have hys : ys = [] := List.eq_nil_of_length_eq_zero (by simpa using hlen)
    subst hys
    exact ⟨borrow.toNat, by simp [subWords]⟩
  | cons x xs ih =>
    have hpow : (2 ^ 32) ^ (xs.length + 1) = 2 ^ 32 * (2 ^ 32) ^ xs.length := Nat.pow_succ'
    simp only [List.length_cons, hpow, Nat.mul_assoc]
    cases ys with
    | nil =>
      cases borrow with
      | false =>
        obtain ⟨out, hout⟩ := ih [] false (by simp)
        refine ⟨out, ?_⟩
        simp only [subWords, Bool.false_eq_true, ↓reduceIte, Radix.value_cons, Radix.value_nil,
          Bool.toNat_false] at hout ⊢
        omega
      | true =>
        obtain ⟨out, hout⟩ := ih [] (if x - 1 ≠ maxUInt32 then false else true) (by simp)
        refine ⟨out, ?_⟩
        have hcell := predCell x
        simp only [subWords, ↓reduceIte, Radix.value_cons, Radix.value_nil,
          Bool.toNat_true] at hout ⊢
        omega
    | cons y ys =>
      have htail : ys.length ≤ xs.length := by simpa using hlen
      cases borrow with
      | false =>
        obtain ⟨out, hout⟩ := ih ys (if x - y > x then true else false) htail
        refine ⟨out, ?_⟩
        have hcell := subCell x y
        simp only [subWords, Bool.false_eq_true, ↓reduceIte, Radix.value_cons,
          Bool.toNat_false] at hout ⊢
        omega
      | true =>
        obtain ⟨out, hout⟩ := ih ys (if x - y - 1 < x then false else true) htail
        refine ⟨out, ?_⟩
        have hcell := subCell_borrow x y
        simp only [subWords, ↓reduceIte, Radix.value_cons, Bool.toNat_true] at hout ⊢
        omega

/-- A larger number minus a smaller one leaves no borrow. -/
theorem value_subWords_of_le (xs ys : List ILUInt32) (hlen : ys.length ≤ xs.length)
    (hle : Radix.value ys ≤ Radix.value xs) :
    Radix.value (subWords xs ys false) = Radix.value xs - Radix.value ys := by
  obtain ⟨out, hout⟩ := value_subWords xs ys false hlen
  rw [Bool.toNat_false, Nat.add_zero] at hout
  exact Radix.value_eq_sub (length_subWords xs ys false) hout hle

/-! ### Comparison -/

theorem compareWords_spec (xs ys : List ILUInt32) (hlen : xs.length = ys.length) :
    (compareWords xs ys < 0 ↔ Radix.value xs.reverse < Radix.value ys.reverse) ∧
      (compareWords xs ys = 0 ↔ Radix.value xs.reverse = Radix.value ys.reverse) := by
  induction xs generalizing ys with
  | nil =>
    have hys : ys = [] := List.eq_nil_of_length_eq_zero hlen.symm
    subst hys
    simp [compareWords]
  | cons x xs ih =>
    cases ys with
    | nil => simp at hlen
    | cons y ys =>
      have htail : xs.length = ys.length := by simpa using hlen
      obtain ⟨ihlt, iheq⟩ := ih ys htail
      have hx := Radix.value_lt xs.reverse
      have hy := Radix.value_lt ys.reverse
      simp only [List.reverse_cons, Radix.value_concat, List.length_reverse, htail] at hx hy ⊢
      generalize (2 ^ 32) ^ ys.length = weight at hx hy ⊢
      simp only [compareWords]
      split_ifs with hlt hgt
      · have hmul := Nat.mul_le_mul_left weight (Nat.succ_le_of_lt hlt)
        rw [Nat.mul_succ] at hmul
        exact ⟨iff_of_true (by decide) (by omega), iff_of_false (by decide) (by omega)⟩
      · have hmul := Nat.mul_le_mul_left weight (Nat.succ_le_of_lt hgt)
        rw [Nat.mul_succ] at hmul
        exact ⟨iff_of_false (by decide) (by omega), iff_of_false (by decide) (by omega)⟩
      · have heq : x.toNat = y.toNat := by bv_omega
        rw [heq, ihlt, iheq]
        omega

theorem ilBigNumCompareAbs_spec (numx numy : ILBigNum) (hx : Radix.Trimmed numx.words)
    (hy : Radix.Trimmed numy.words) :
    (ilBigNumCompareAbs numx numy < 0 ↔ Radix.value numx.words < Radix.value numy.words) ∧
      (ilBigNumCompareAbs numx numy = 0 ↔ Radix.value numx.words = Radix.value numy.words) := by
  unfold ilBigNumCompareAbs ILBigNum.size
  split_ifs with hlt hgt
  · have hval := Radix.value_lt_of_length_lt hy hlt
    exact ⟨iff_of_true (by decide) hval, iff_of_false (by decide) (by omega)⟩
  · have hval := Radix.value_lt_of_length_lt hx hgt
    exact ⟨iff_of_false (by decide) (by omega), iff_of_false (by decide) (by omega)⟩
  · have hspec := compareWords_spec numx.words.reverse numy.words.reverse (by simp; omega)
    simpa using hspec

theorem ilBigNumCompareAbs_nonneg_iff (numx numy : ILBigNum) (hx : Radix.Trimmed numx.words)
    (hy : Radix.Trimmed numy.words) :
    ilBigNumCompareAbs numx numy ≥ 0 ↔ Radix.value numy.words ≤ Radix.value numx.words := by
  have hspec := (ilBigNumCompareAbs_spec numx numy hx hy).1
  omega

/-! ### Normalized numbers -/

theorem normalized_normalizeBigNum (num : ILBigNum) : (normalizeBigNum num).Normalized := by
  refine ⟨Radix.trimmed_trim _, fun h => ?_⟩
  simp only [normalizeBigNum] at h ⊢
  rw [if_pos h]

theorem value_normalizeBigNum (num : ILBigNum) :
    Radix.value (normalizeBigNum num).words = Radix.value num.words :=
  Radix.value_trim _

theorem toInt_normalizeBigNum (num : ILBigNum) : (normalizeBigNum num).toInt = num.toInt := by
  unfold ILBigNum.toInt
  rw [value_normalizeBigNum]
  simp only [normalizeBigNum]
  by_cases hnil : Radix.trim num.words = []
  · have hzero : Radix.value num.words = 0 := by
      rw [← Radix.value_trim, hnil, Radix.value_nil]
    simp [hnil, hzero]
  · simp [hnil]

theorem normalized_fromInt (word : ILUInt32) : (ilBigNumFromInt word).Normalized := by
  unfold ilBigNumFromInt
  split
  · rename_i hne
    exact ⟨by simpa [Radix.Trimmed] using hne, by simp⟩
  · exact ⟨Radix.trimmed_nil, fun _ => rfl⟩

theorem toInt_fromInt (word : ILUInt32) : (ilBigNumFromInt word).toInt = word.toNat := by
  unfold ilBigNumFromInt
  split
  · simp [ILBigNum.toInt]
  · rename_i hzero
    simp only [ne_eq, not_not] at hzero
    simp [ILBigNum.toInt, hzero]

theorem value_fromInt (word : ILUInt32) : Radix.value (ilBigNumFromInt word).words = word.toNat := by
  unfold ilBigNumFromInt
  split
  · simp
  · rename_i hzero
    simp only [ne_eq, not_not] at hzero
    simp [hzero]

theorem neg_fromInt (word : ILUInt32) : (ilBigNumFromInt word).neg = false := by
  unfold ilBigNumFromInt
  split <;> rfl

theorem toInt_of_not_neg {num : ILBigNum} (h : num.neg = false) :
    num.toInt = Radix.value num.words := by
  simp [ILBigNum.toInt, h]

theorem toInt_of_nil {num : ILBigNum} (h : num.words = []) : num.toInt = 0 := by
  simp [ILBigNum.toInt, h]

/-- A normalized member of `[0, modulus)`. -/
structure ILBigNum.Residue (modulus num : ILBigNum) : Prop where
  normalized : num.Normalized
  nonneg : 0 ≤ num.toInt
  lt : num.toInt < modulus.toInt

theorem neg_eq_false_of_nonneg {num : ILBigNum} (hnum : num.Normalized) (h : 0 ≤ num.toInt) :
    num.neg = false := by
  cases hneg : num.neg with
  | false => rfl
  | true =>
    have hne : num.words ≠ [] := fun hnil => by simp [hnum.2 hnil] at hneg
    have hpos : Radix.value num.words ≠ 0 := fun hz => hne ((Radix.value_eq_zero_iff hnum.1).mp hz)
    simp [ILBigNum.toInt, hneg] at h
    omega

/-! ### Signed sums and differences -/

theorem neg_eq_false_of_pos {num : ILBigNum} (h : 0 < num.toInt) : num.neg = false := by
  cases hneg : num.neg with
  | false => rfl
  | true =>
    rw [ILBigNum.toInt, if_pos hneg] at h
    omega

theorem bigNumAdd_none (fuel : Nat) (numx numy : ILBigNum) (resultNeg : Bool) :
    ∃ sum, bigNumAdd fuel numx numy none resultNeg = some sum ∧ sum.Normalized ∧
      sum.toInt = (if resultNeg then -1 else 1) *
        ((Radix.value numx.words : Int) + Radix.value numy.words) := by
  refine ⟨_, rfl, normalized_normalizeBigNum _, ?_⟩
  have hvalue := value_addWords numx.words numy.words false
  rw [toInt_normalizeBigNum]
  simp only [ILBigNum.toInt, hvalue, Bool.toNat_false]
  split <;> push_cast <;> ring

theorem normalized_bigNumDiff (numx numy : ILBigNum) (resultNeg : Bool) :
    (bigNumDiff numx numy resultNeg).Normalized := by
  unfold bigNumDiff
  split
  · exact normalized_fromInt 0
  · exact normalized_normalizeBigNum _

theorem toInt_bigNumDiff (numx numy : ILBigNum) (resultNeg : Bool)
    (hlen : numy.words.length ≤ numx.words.length)
    (hle : Radix.value numy.words ≤ Radix.value numx.words) :
    (bigNumDiff numx numy resultNeg).toInt = (if resultNeg then -1 else 1) *
      ((Radix.value numx.words : Int) - Radix.value numy.words) := by
  unfold bigNumDiff
  split
  · rename_i hsize
    have hx : numx.words = [] := List.eq_nil_of_length_eq_zero hsize
    have hy : numy.words = [] := List.eq_nil_of_length_eq_zero (by rw [hx] at hlen; simpa using hlen)
    simp [toInt_fromInt, hx, hy]
  · have hvalue := value_subWords_of_le _ _ hlen hle
    rw [toInt_normalizeBigNum]
    simp only [ILBigNum.toInt, hvalue]
    split <;> push_cast [hle] <;> ring

/-- Among trimmed numbers the larger one has at least as many words. -/
theorem length_le_of_value_le {xs ys : List ILUInt32} (hys : Radix.Trimmed ys)
    (h : Radix.value ys ≤ Radix.value xs) : ys.length ≤ xs.length := by
  by_contra hlt
  have hval := Radix.value_lt_of_length_lt hys (Nat.lt_of_not_le hlt)
  omega

/-- The smaller magnitude off the larger one; `resultNeg` is the sign when the
first magnitude is not the smaller. -/
def subByMagnitude (numx numy : ILBigNum) (modulus : Option ILBigNum) (resultNeg : Bool) :
    ILBigNum :=
  if ilBigNumCompareAbs numx numy ≥ 0 then bigNumSub numx numy modulus resultNeg
  else bigNumSub numy numx modulus (!resultNeg)

theorem ilBigNumAdd_eq (fuel : Nat) (numx numy : ILBigNum) (modulus : Option ILBigNum) :
    ilBigNumAdd fuel numx numy modulus =
      if numx.neg = numy.neg then bigNumAdd fuel numx numy modulus numx.neg
      else some (subByMagnitude numx numy modulus numx.neg) := by
  unfold ilBigNumAdd subByMagnitude
  cases numx.neg <;> cases numy.neg <;> split_ifs <;> simp_all

theorem ilBigNumSub_eq (fuel : Nat) (numx numy : ILBigNum) (modulus : Option ILBigNum) :
    ilBigNumSub fuel numx numy modulus =
      if numx.neg = numy.neg then some (subByMagnitude numx numy modulus numx.neg)
      else bigNumAdd fuel numx numy modulus numx.neg := by
  unfold ilBigNumSub subByMagnitude
  cases numx.neg <;> cases numy.neg <;> split_ifs <;> simp_all

theorem toInt_eq_sign_mul (num : ILBigNum) :
    num.toInt = (if num.neg then -1 else 1) * (Radix.value num.words : Int) := by
  unfold ILBigNum.toInt
  split <;> ring

theorem subByMagnitude_none (numx numy : ILBigNum) (hx : numx.Normalized) (hy : numy.Normalized)
    (resultNeg : Bool) :
    (subByMagnitude numx numy none resultNeg).Normalized ∧
      (subByMagnitude numx numy none resultNeg).toInt = (if resultNeg then -1 else 1) *
        ((Radix.value numx.words : Int) - Radix.value numy.words) := by
  have hcompare := ilBigNumCompareAbs_nonneg_iff numx numy hx.1 hy.1
  unfold subByMagnitude
  split_ifs with hge hneg
  all_goals try
    have hle := hcompare.mp hge
    refine ⟨normalized_bigNumDiff _ _ _, ?_⟩
    rw [bigNumSub, toInt_bigNumDiff _ _ _ (length_le_of_value_le hy.1 hle) hle]
    simp [hneg]
  all_goals
    have hle : Radix.value numx.words ≤ Radix.value numy.words := by omega
    refine ⟨normalized_bigNumDiff _ _ _, ?_⟩
    rw [bigNumSub, toInt_bigNumDiff _ _ _ (length_le_of_value_le hx.1 hle) hle]
    simp [*]

theorem ilBigNumAdd_none (fuel : Nat) (numx numy : ILBigNum) (hx : numx.Normalized)
    (hy : numy.Normalized) :
    ∃ sum, ilBigNumAdd fuel numx numy none = some sum ∧ sum.Normalized ∧
      sum.toInt = numx.toInt + numy.toInt := by
  rw [ilBigNumAdd_eq, toInt_eq_sign_mul numx, toInt_eq_sign_mul numy]
  split
  · rename_i hsame
    obtain ⟨sum, hsum, hnorm, hvalue⟩ := bigNumAdd_none fuel numx numy numx.neg
    refine ⟨sum, hsum, hnorm, ?_⟩
    rw [hvalue, hsame, mul_add]
  · rename_i hdiffer
    obtain ⟨hnorm, hvalue⟩ := subByMagnitude_none numx numy hx hy numx.neg
    refine ⟨_, rfl, hnorm, ?_⟩
    have hneg : numy.neg = !numx.neg := by
      cases hnx : numx.neg <;> cases hny : numy.neg <;> simp_all
    rw [hvalue, hneg]
    cases numx.neg <;> simp <;> ring

theorem ilBigNumSub_none (fuel : Nat) (numx numy : ILBigNum) (hx : numx.Normalized)
    (hy : numy.Normalized) :
    ∃ diff, ilBigNumSub fuel numx numy none = some diff ∧ diff.Normalized ∧
      diff.toInt = numx.toInt - numy.toInt := by
  rw [ilBigNumSub_eq, toInt_eq_sign_mul numx, toInt_eq_sign_mul numy]
  split
  · rename_i hsame
    obtain ⟨hnorm, hvalue⟩ := subByMagnitude_none numx numy hx hy numx.neg
    refine ⟨_, rfl, hnorm, ?_⟩
    rw [hvalue, hsame, mul_sub]
  · rename_i hdiffer
    obtain ⟨sum, hsum, hnorm, hvalue⟩ := bigNumAdd_none fuel numx numy numx.neg
    refine ⟨sum, hsum, hnorm, ?_⟩
    have hneg : numy.neg = !numx.neg := by
      cases hnx : numx.neg <;> cases hny : numy.neg <;> simp_all
    rw [hvalue, hneg]
    cases numx.neg with
    | false => simp
    | true =>
      simp only [↓reduceIte, Bool.not_true, Bool.false_eq_true]
      ring

end Pnet.Support
