import Pnet.Support.BigNumArith

/-! Addition and subtraction under a modulus. The pass that takes the modulus
off a sum decides each borrow by comparing the new word with the word of the
modulus; `BorrowTestRight` says when that is the borrow of the subtraction. -/
namespace Pnet.Support
open Pnet.Lib

/-- Word `i` of a natural number. -/
def wordAt (n i : Nat) : Nat := n / (2 ^ 32) ^ i % 2 ^ 32

/-- Subtracting `m` and `carry` from `s` word by word borrows from word `i`. -/
def borrowInto (carry : Bool) (s m i : Nat) : Bool :=
  s % (2 ^ 32) ^ i < m % (2 ^ 32) ^ i + carry.toNat

/-- The test of the pass finds the borrow out of a word `s`, when `m` and
`borrow` are taken off it. -/
def BorrowTestRight (s m : Nat) (borrow : Bool) : Prop :=
  if s < m + borrow.toNat then 2 * m < s + 2 ^ 32 else s ≤ 2 * m

/-- The test is right on every word of `s` below the top one. -/
def PassExact (s m : Nat) : Prop :=
  ∀ i, (2 ^ 32) ^ (i + 1) ≤ s →
    BorrowTestRight (wordAt s i) (wordAt m i) (borrowInto false s m i)

/-! ### One word of the pass -/

theorem subModulusCell (s m : ILUInt32) :
    (s - m).toNat + m.toNat = s.toNat + 2 ^ 32 * (decide (s.toNat < m.toNat)).toNat ∧
      ((if s - m > m then true else false) = decide (s.toNat < m.toNat) ↔
        BorrowTestRight s.toNat m.toNat false) := by
  unfold BorrowTestRight
  by_cases hlt : s.toNat < m.toNat
  · simp only [hlt, decide_true, Bool.toNat_true, Bool.toNat_false, Nat.add_zero, ↓reduceIte,
      Bool.if_false_right, Bool.and_true, decide_eq_true_eq]
    constructor <;> bv_omega
  · simp only [hlt, decide_false, Bool.toNat_false, Nat.add_zero, ↓reduceIte,
      Bool.if_false_right, Bool.and_true, decide_eq_false_iff_not]
    constructor <;> bv_omega

theorem subModulusCell_carry (s m : ILUInt32) :
    (s - (m + 1)).toNat + m.toNat + 1 =
        s.toNat + 2 ^ 32 * (decide (s.toNat < m.toNat + 1)).toNat ∧
      ((if s - (m + 1) < m then false else true) = decide (s.toNat < m.toNat + 1) ↔
        BorrowTestRight s.toNat m.toNat true) := by
  unfold BorrowTestRight
  by_cases hlt : s.toNat < m.toNat + 1
  · simp only [hlt, decide_true, Bool.toNat_true, ↓reduceIte, Bool.if_true_right, Bool.or_false,
      Bool.not_eq_true', decide_eq_false_iff_not]
    constructor <;> bv_omega
  · simp only [hlt, decide_false, Bool.toNat_true, Bool.toNat_false, ↓reduceIte,
      Bool.if_true_right, Bool.or_false, Bool.not_eq_false', decide_eq_true_eq]
    constructor <;> bv_omega

/-- A step of the pass: the word is exact, the borrow it passes on is right
when the test is. -/
theorem subModulusWords_cons (s m : ILUInt32) (borrow : Bool) :
    ∃ (word : ILUInt32) (carry : Bool),
      (∀ ss ms, subModulusWords (s :: ss) (m :: ms) borrow = word :: subModulusWords ss ms carry) ∧
      word.toNat + m.toNat + borrow.toNat =
        s.toNat + 2 ^ 32 * (decide (s.toNat < m.toNat + borrow.toNat)).toNat ∧
      (carry = decide (s.toNat < m.toNat + borrow.toNat) ↔
        BorrowTestRight s.toNat m.toNat borrow) := by
  cases borrow with
  | false => exact ⟨_, _, fun _ _ => rfl, (subModulusCell s m).1, (subModulusCell s m).2⟩
  | true => exact ⟨_, _, fun _ _ => rfl, (subModulusCell_carry s m).1, (subModulusCell_carry s m).2⟩

/-! ### The whole pass -/

theorem length_subModulusWords (ss ms : List ILUInt32) (carry : Bool) :
    (subModulusWords ss ms carry).length = ss.length := by
  induction ss generalizing ms carry with
  | nil => cases ms <;> simp [subModulusWords]
  | cons s ss ih => cases ms <;> cases carry <;> simp [subModulusWords, ih]

/-- The first word only depends on the borrow the pass starts with. -/
theorem value_subModulusWords_mod (ss ms : List ILUInt32) (carry : Bool) (hne : ss ≠ []) :
    (Radix.value (subModulusWords ss ms carry) + Radix.value ms + carry.toNat) % 2 ^ 32 =
      Radix.value ss % 2 ^ 32 := by
  obtain ⟨s, ss, rfl⟩ := List.exists_cons_of_ne_nil hne
  cases ms with
  | nil =>
    have hcell := predCell s
    cases carry with
    | false => simp [subModulusWords]
    | true =>
      simp only [subModulusWords, ↓reduceIte, Radix.value_cons, Radix.value_nil, Bool.toNat_true]
      omega
  | cons m ms =>
    obtain ⟨word, carry', hstep, hword, -⟩ := subModulusWords_cons s m carry
    rw [hstep]
    simp only [Radix.value_cons]
    omega

theorem borrowInto_zero (carry : Bool) (s m : Nat) : borrowInto carry s m 0 = carry := by
  cases carry <;> simp [borrowInto, Nat.mod_one]

theorem wordAt_cons_zero (d n : Nat) (hd : d < 2 ^ 32) : wordAt (d + 2 ^ 32 * n) 0 = d := by
  unfold wordAt
  rw [pow_zero, Nat.div_one, Nat.add_mul_mod_self_left, Nat.mod_eq_of_lt hd]

theorem wordAt_cons_succ (d n i : Nat) (hd : d < 2 ^ 32) :
    wordAt (d + 2 ^ 32 * n) (i + 1) = wordAt n i := by
  unfold wordAt
  rw [Radix.div_pow_succ n i hd]

theorem borrowInto_cons_succ (carry : Bool) (d e s m i : Nat) (hd : d < 2 ^ 32) (he : e < 2 ^ 32) :
    borrowInto carry (d + 2 ^ 32 * s) (e + 2 ^ 32 * m) (i + 1) =
      borrowInto (decide (d < e + carry.toNat)) s m i := by
  unfold borrowInto
  rw [Radix.mod_pow_succ s i hd, Radix.mod_pow_succ m i he, decide_eq_decide]
  have hcarry : carry.toNat ≤ 1 := Bool.toNat_le carry
  by_cases hlt : d < e + carry.toNat
  · simp only [hlt, decide_true, Bool.toNat_true]
    omega
  · simp only [hlt, decide_false, Bool.toNat_false]
    omega

/-- The words below the top one, one word further on. -/
theorem borrowTests_cons (carry : Bool) (d e : ILUInt32) (s m n : Nat) :
    (∀ i, i + 1 < n + 1 → BorrowTestRight (wordAt (d.toNat + 2 ^ 32 * s) i)
        (wordAt (e.toNat + 2 ^ 32 * m) i)
        (borrowInto carry (d.toNat + 2 ^ 32 * s) (e.toNat + 2 ^ 32 * m) i)) ↔
      (0 < n → BorrowTestRight d.toNat e.toNat carry) ∧
        ∀ i, i + 1 < n → BorrowTestRight (wordAt s i) (wordAt m i)
          (borrowInto (decide (d.toNat < e.toNat + carry.toNat)) s m i) := by
  have hd : d.toNat < 2 ^ 32 := d.isLt
  have he : e.toNat < 2 ^ 32 := e.isLt
  constructor
  · intro h
    refine ⟨fun hn => ?_, fun i hi => ?_⟩
    · have h0 := h 0 (by omega)
      rwa [wordAt_cons_zero _ _ hd, wordAt_cons_zero _ _ he, borrowInto_zero] at h0
    · have hi' := h (i + 1) (by omega)
      rwa [wordAt_cons_succ _ _ _ hd, wordAt_cons_succ _ _ _ he,
        borrowInto_cons_succ _ _ _ _ _ _ hd he] at hi'
  · rintro ⟨h0, hsucc⟩ i hi
    cases i with
    | zero =>
      rw [wordAt_cons_zero _ _ hd, wordAt_cons_zero _ _ he, borrowInto_zero]
      exact h0 (by omega)
    | succ i =>
      rw [wordAt_cons_succ _ _ _ hd, wordAt_cons_succ _ _ _ he,
        borrowInto_cons_succ _ _ _ _ _ _ hd he]
      exact hsucc i (by omega)

/-- The pass subtracts the modulus exactly when its tests are right below the
top word: a wrong borrow spoils the word it goes into. -/
theorem value_subModulusWords_iff (ss ms : List ILUInt32) (carry : Bool)
    (hle : ms.length ≤ ss.length) (hlt : ss.length ≤ ms.length + 1) :
    (∃ out : Nat, Radix.value (subModulusWords ss ms carry) + (Radix.value ms + carry.toNat) =
        Radix.value ss + (2 ^ 32) ^ ss.length * out) ↔
      ∀ i, i + 1 < ss.length → BorrowTestRight (wordAt (Radix.value ss) i)
        (wordAt (Radix.value ms) i) (borrowInto carry (Radix.value ss) (Radix.value ms) i) := by
  induction ms generalizing ss carry with
  | nil =>
    refine ⟨fun _ i hi => ?_, fun _ => ?_⟩
    · simp only [List.length_nil] at hlt
      omega
    · cases ss with
      | nil => exact ⟨carry.toNat, by simp [subModulusWords]⟩
      | cons s ss =>
        have hnil : ss = [] := List.eq_nil_of_length_eq_zero (by simpa using hlt)
        subst hnil
        have hcell := predCell s
        cases carry with
        | false => exact ⟨0, by simp [subModulusWords]⟩
        | true =>
          refine ⟨(if s - 1 ≠ maxUInt32 then false else true).toNat, ?_⟩
          simp only [subModulusWords, ↓reduceIte, Radix.value_cons, Radix.value_nil,
            Bool.toNat_true, List.length_singleton, pow_one]
          omega
  | cons m ms ih =>
    obtain ⟨s, ss, rfl⟩ : ∃ s ss', ss = s :: ss' := by
      cases ss with
      | nil => simp at hle
      | cons s ss => exact ⟨s, ss, rfl⟩
    have hle' : ms.length ≤ ss.length := by simpa using hle
    have hlt' : ss.length ≤ ms.length + 1 := by simpa using hlt
    obtain ⟨word, carry', hstep, hword, htest⟩ := subModulusWords_cons s m carry
    rw [hstep]
    simp only [Radix.value_cons, List.length_cons]
    rw [borrowTests_cons]
    set trueBorrow : Bool := decide (s.toNat < m.toNat + carry.toNat) with htrue
    have hpow : (2 ^ 32) ^ (ss.length + 1) = 2 ^ 32 * (2 ^ 32) ^ ss.length := Nat.pow_succ'
    have hreduce : (∃ out : Nat, word.toNat + 2 ^ 32 * Radix.value (subModulusWords ss ms carry') +
          (m.toNat + 2 ^ 32 * Radix.value ms + carry.toNat) =
        s.toNat + 2 ^ 32 * Radix.value ss + (2 ^ 32) ^ (ss.length + 1) * out) ↔
        ∃ out : Nat, Radix.value (subModulusWords ss ms carry') +
            (Radix.value ms + trueBorrow.toNat) =
          Radix.value ss + (2 ^ 32) ^ ss.length * out := by
      rw [hpow]
      refine exists_congr fun out => ?_
      rw [Nat.mul_assoc]
      generalize (2 ^ 32) ^ ss.length * out = high
      omega
    rw [hreduce]
    by_cases hright : carry' = trueBorrow
    · rw [← ih ss trueBorrow hle' hlt', hright]
      exact ⟨fun h => ⟨fun _ => htest.mp hright, h⟩, fun h => h.2⟩
    · rcases Nat.eq_zero_or_pos ss.length with hzero | hpos
      · have hss := List.eq_nil_of_length_eq_zero hzero
        have hms := List.eq_nil_of_length_eq_zero (show ms.length = 0 by omega)
        subst hss hms
        refine ⟨fun _ => ⟨fun h => absurd h (by simp), fun i hi => ?_⟩, fun _ => ⟨trueBorrow.toNat, ?_⟩⟩
        · simp at hi
        · simp [subModulusWords]
      · refine ⟨?_, fun h => absurd (htest.mpr (h.1 hpos)) hright⟩
        rintro ⟨out, hout⟩
        have hmod := value_subModulusWords_mod ss ms carry' (List.ne_nil_of_length_pos hpos)
        obtain ⟨n, hn⟩ := Nat.exists_eq_succ_of_ne_zero hpos.ne'
        rw [hn, Nat.succ_eq_add_one, Nat.pow_succ', Nat.mul_assoc] at hout
        generalize (2 ^ 32) ^ n * out = high at hout
        cases hc : carry' <;> cases ht : trueBorrow <;>
          simp only [hc, ht, Bool.toNat_true, Bool.toNat_false, not_true_eq_false] at * <;> omega

/-! ### Sums -/

/-- The sum needs no pass, or the pass is exact on it. -/
def AddExact (numx numy modulus : ILBigNum) : Prop :=
  numx.toInt + numy.toInt < modulus.toInt ∨
    PassExact (numx.toInt + numy.toInt).toNat modulus.toInt.toNat

theorem subModulusWords_exact_iff (sum modulus : ILBigNum) (hs : Radix.Trimmed sum.words)
    (hm : Radix.Trimmed modulus.words)
    (hle : Radix.value modulus.words ≤ Radix.value sum.words)
    (hlt : Radix.value sum.words < 2 * Radix.value modulus.words) :
    Radix.value (subModulusWords sum.words modulus.words false) =
        Radix.value sum.words - Radix.value modulus.words ↔
      PassExact (Radix.value sum.words) (Radix.value modulus.words) := by
  have hlong : sum.words.length ≤ modulus.words.length + 1 := by
    by_contra hgt
    have hbig := (Radix.pow_le_value_iff hs (modulus.words.length + 1)).mpr (by omega)
    have hsmall := Radix.value_lt modulus.words
    rw [pow_succ (2 ^ 32 : Nat) modulus.words.length] at hbig
    omega
  have hpass := value_subModulusWords_iff sum.words modulus.words false
    (length_le_of_value_le hm hle) hlong
  rw [Bool.toNat_false, Nat.add_zero] at hpass
  have hexact : Radix.value (subModulusWords sum.words modulus.words false) =
        Radix.value sum.words - Radix.value modulus.words ↔
      ∃ out : Nat, Radix.value (subModulusWords sum.words modulus.words false) +
          Radix.value modulus.words =
        Radix.value sum.words + (2 ^ 32) ^ sum.words.length * out := by
    constructor
    · intro h
      exact ⟨0, by omega⟩
    · rintro ⟨out, hout⟩
      exact Radix.value_eq_sub (length_subModulusWords _ _ _) hout hle
  rw [hexact, hpass]
  unfold PassExact
  exact forall_congr' fun i => by rw [Radix.pow_le_value_iff hs]

theorem reduceByModulus_of_lt (modulus sum : ILBigNum) (fuel : Nat)
    (hs : Radix.Trimmed sum.words) (hm : Radix.Trimmed modulus.words)
    (hlt : Radix.value sum.words < Radix.value modulus.words) :
    reduceByModulus modulus (fuel + 1) sum = some sum := by
  have hcompare := ilBigNumCompareAbs_nonneg_iff sum modulus hs hm
  rw [reduceByModulus, if_neg (fun h => by have := hcompare.mp h; omega)]

theorem reduceByModulus_of_le (modulus sum : ILBigNum) (fuel : Nat)
    (hs : Radix.Trimmed sum.words) (hm : Radix.Trimmed modulus.words)
    (hle : Radix.value modulus.words ≤ Radix.value sum.words) :
    reduceByModulus modulus (fuel + 1) sum = reduceByModulus modulus fuel
      (normalizeBigNum ⟨sum.neg, subModulusWords sum.words modulus.words false⟩) := by
  have hcompare := ilBigNumCompareAbs_nonneg_iff sum modulus hs hm
  rw [reduceByModulus, if_pos (hcompare.mpr hle)]

/-- What one round leaves is the answer of two, if two are enough. -/
theorem reduceByModulus_two {modulus sum result : ILBigNum}
    (h : reduceByModulus modulus 1 sum = some result) : result = sum := by
  unfold reduceByModulus at h
  split at h
  · simp [reduceByModulus] at h
  · exact (Option.some.inj h).symm

section
variable {numx numy modulus : ILBigNum}

theorem sum_mod (hx : modulus.Residue numx) (hy : modulus.Residue numy) :
    (numx.toInt + numy.toInt) % modulus.toInt =
      if numx.toInt + numy.toInt < modulus.toInt then numx.toInt + numy.toInt
      else numx.toInt + numy.toInt - modulus.toInt := by
  obtain ⟨-, hx0, hxlt⟩ := hx
  obtain ⟨-, hy0, hylt⟩ := hy
  split
  · rw [Int.emod_eq_of_lt (by omega) (by assumption)]
  · rw [← Int.sub_emod_right, Int.emod_eq_of_lt (by omega) (by omega)]

/-- The sum before the modulus is looked at. -/
theorem ilBigNumAdd_residues (fuel : Nat) (hx : modulus.Residue numx) (hy : modulus.Residue numy) :
    ∃ sum : ILBigNum, ilBigNumAdd fuel numx numy (some modulus) = reduceByModulus modulus fuel sum ∧
      sum.Normalized ∧ sum.neg = false ∧ sum.toInt = numx.toInt + numy.toInt := by
  have hxneg := neg_eq_false_of_nonneg hx.normalized hx.nonneg
  have hyneg := neg_eq_false_of_nonneg hy.normalized hy.nonneg
  have hsum := value_addWords numx.words numy.words false
  rw [Bool.toNat_false, Nat.add_zero] at hsum
  refine ⟨normalizeBigNum ⟨false, addWords numx.words numy.words false⟩, ?_,
    normalized_normalizeBigNum _, by simp [normalizeBigNum], ?_⟩
  · rw [ilBigNumAdd_eq, if_pos (hxneg.trans hyneg.symm), hxneg]
    rfl
  · rw [toInt_normalizeBigNum, toInt_of_not_neg rfl, toInt_of_not_neg hxneg,
      toInt_of_not_neg hyneg]
    exact_mod_cast hsum

theorem ilBigNumSub_residues (fuel : Nat) (hx : modulus.Residue numx) (hy : modulus.Residue numy) :
    ∃ diff, ilBigNumSub fuel numx numy (some modulus) = some diff ∧ diff.Normalized ∧
      diff.toInt = (numx.toInt - numy.toInt) % modulus.toInt := by
  have hxneg := neg_eq_false_of_nonneg hx.normalized hx.nonneg
  have hyneg := neg_eq_false_of_nonneg hy.normalized hy.nonneg
  have hmneg := neg_eq_false_of_pos (lt_of_le_of_lt hx.nonneg hx.lt)
  have hxlt := hx.lt
  have hylt := hy.lt
  rw [toInt_of_not_neg hxneg, toInt_of_not_neg hmneg] at hxlt
  rw [toInt_of_not_neg hyneg, toInt_of_not_neg hmneg] at hylt
  have hcompare := ilBigNumCompareAbs_nonneg_iff numx numy hx.normalized.1 hy.normalized.1
  rw [ilBigNumSub_eq, if_pos (hxneg.trans hyneg.symm), hxneg, subByMagnitude,
    toInt_of_not_neg hxneg, toInt_of_not_neg hyneg, toInt_of_not_neg hmneg]
  refine ⟨_, rfl, ?_⟩
  split
  · rename_i hge
    have hle := hcompare.mp hge
    have hdiff := toInt_bigNumDiff numx numy false (length_le_of_value_le hy.normalized.1 hle) hle
    have hnorm := normalized_bigNumDiff numx numy false
    simp only [Bool.false_eq_true, ↓reduceIte, one_mul] at hdiff
    have hneg := neg_eq_false_of_nonneg hnorm (by omega)
    rw [bigNumSub, hneg, if_neg Bool.false_ne_true, hdiff, Int.emod_eq_of_lt (by omega) (by omega)]
    exact ⟨hnorm, rfl⟩
  · rename_i hlt
    have hle : Radix.value numx.words ≤ Radix.value numy.words := by omega
    have hdiff := toInt_bigNumDiff numy numx true (length_le_of_value_le hx.normalized.1 hle) hle
    have hnorm := normalized_bigNumDiff numy numx true
    simp only [↓reduceIte] at hdiff
    have hneg : (bigNumDiff numy numx true).neg = true := by
      by_contra hpos
      rw [Bool.not_eq_true] at hpos
      rw [toInt_of_not_neg hpos] at hdiff
      omega
    have hvalue : Radix.value (bigNumDiff numy numx true).words =
        Radix.value numy.words - Radix.value numx.words := by
      rw [ILBigNum.toInt, if_pos hneg] at hdiff
      omega
    have hfits : Radix.value (bigNumDiff numy numx true).words ≤ Radix.value modulus.words := by
      omega
    rw [bigNumSub, Bool.not_false, hneg, if_pos rfl,
      toInt_bigNumDiff _ _ _ (length_le_of_value_le hnorm.1 hfits) hfits, hvalue]
    refine ⟨normalized_bigNumDiff _ _ _, ?_⟩
    rw [← Int.add_emod_right, Int.emod_eq_of_lt (by omega) (by omega)]
    simp only [Bool.false_eq_true, ↓reduceIte]
    omega

end

/-- Subtraction under a modulus is right. Addition is right, after at most one
pass, exactly when the tests of that pass are. -/
theorem ilBigNumAddSub_modulus (numx numy modulus : ILBigNum) (hm : modulus.Normalized)
    (hx : modulus.Residue numx) (hy : modulus.Residue numy) :
    (∀ fuel, ∃ diff, ilBigNumSub fuel numx numy (some modulus) = some diff ∧ diff.Normalized ∧
        diff.toInt = (numx.toInt - numy.toInt) % modulus.toInt) ∧
      (AddExact numx numy modulus → ∀ fuel,
        ∃ sum, ilBigNumAdd (fuel + 2) numx numy (some modulus) = some sum ∧ sum.Normalized ∧
          sum.toInt = (numx.toInt + numy.toInt) % modulus.toInt) ∧
      (¬ AddExact numx numy modulus → ∀ sum,
        ilBigNumAdd 2 numx numy (some modulus) = some sum →
          sum.toInt ≠ (numx.toInt + numy.toInt) % modulus.toInt) := by
  have hmneg := neg_eq_false_of_pos (lt_of_le_of_lt hx.nonneg hx.lt)
  have hmvalue := toInt_of_not_neg hmneg
  refine ⟨fun fuel => ilBigNumSub_residues fuel hx hy, fun hexact fuel => ?_,
    fun hexact result hresult => ?_⟩
  · obtain ⟨sum, hadd, hnorm, hneg, hsum⟩ := ilBigNumAdd_residues (fuel + 2) hx hy
    have hvalue := toInt_of_not_neg hneg
    rw [hadd, sum_mod hx hy]
    by_cases hlt : numx.toInt + numy.toInt < modulus.toInt
    · rw [reduceByModulus_of_lt modulus sum (fuel + 1) hnorm.1 hm.1 (by omega), if_pos hlt]
      exact ⟨sum, rfl, hnorm, hsum⟩
    · have hpass := hexact.resolve_left hlt
      have hs : (numx.toInt + numy.toInt).toNat = Radix.value sum.words := by omega
      have hmv : modulus.toInt.toNat = Radix.value modulus.words := by omega
      rw [hs, hmv] at hpass
      have hxlt := hx.lt
      have hylt := hy.lt
      have hsub := (subModulusWords_exact_iff sum modulus hnorm.1 hm.1 (by omega) (by omega)).mpr
        hpass
      rw [reduceByModulus_of_le modulus sum (fuel + 1) hnorm.1 hm.1 (by omega), hneg, if_neg hlt]
      have hnext := value_normalizeBigNum ⟨false, subModulusWords sum.words modulus.words false⟩
      rw [reduceByModulus_of_lt _ _ fuel (normalized_normalizeBigNum _).1 hm.1
        (by rw [hnext, hsub]; omega)]
      refine ⟨_, rfl, normalized_normalizeBigNum _, ?_⟩
      rw [toInt_normalizeBigNum, toInt_of_not_neg rfl, hsub]
      omega
  · obtain ⟨sum, hadd, hnorm, hneg, hsum⟩ := ilBigNumAdd_residues 2 hx hy
    have hvalue := toInt_of_not_neg hneg
    obtain ⟨hge, hpass⟩ := not_or.mp hexact
    have hs : (numx.toInt + numy.toInt).toNat = Radix.value sum.words := by omega
    have hmv : modulus.toInt.toNat = Radix.value modulus.words := by omega
    rw [hs, hmv] at hpass
    have hxlt := hx.lt
    have hylt := hy.lt
    have hsub := mt (subModulusWords_exact_iff sum modulus hnorm.1 hm.1 (by omega) (by omega)).mp
      hpass
    rw [hadd, reduceByModulus_of_le modulus sum 1 hnorm.1 hm.1 (by omega), hneg] at hresult
    rw [reduceByModulus_two hresult, sum_mod hx hy, if_neg (by omega), toInt_normalizeBigNum,
      toInt_of_not_neg rfl]
    simp only
    omega

theorem ilBigNumAddSub_modulus_three :
    ∃ sum, ilBigNumAdd 2 ⟨false, [2]⟩ ⟨false, [2]⟩ (some ⟨false, [3]⟩) = some sum ∧
      sum.Normalized ∧ sum.toInt = 1 := by
  have hexact : AddExact ⟨false, [2]⟩ ⟨false, [2]⟩ ⟨false, [3]⟩ := by
    refine .inr fun i hi => absurd hi (Nat.not_le_of_lt ?_)
    calc _ < (2 ^ 32) ^ 1 := by decide
      _ ≤ _ := Nat.pow_le_pow_right (by decide) (by omega)
  exact (ilBigNumAddSub_modulus ⟨false, [2]⟩ ⟨false, [2]⟩ ⟨false, [3]⟩ (by decide)
    ⟨by decide, by decide, by decide⟩ ⟨by decide, by decide, by decide⟩).2.1 hexact 0

/-- `(2^32 + 2) + (2^33 - 1)` under `2^33`: the low word of the modulus is zero, so
the test sees a borrow that is not there, and the sum comes out as `1` instead
of `2^32 + 1`. -/
theorem ilBigNumAdd_false_borrow :
    let modulus : ILBigNum := ⟨false, [0, 2]⟩
    let numx : ILBigNum := ⟨false, [2, 1]⟩
    let numy : ILBigNum := ⟨false, [0xFFFFFFFF, 1]⟩
    modulus.Normalized ∧ modulus.Residue numx ∧ modulus.Residue numy ∧
      ∀ fuel sum, ilBigNumAdd fuel numx numy (some modulus) = some sum →
        sum.toInt ≠ (numx.toInt + numy.toInt) % modulus.toInt := by
  intro modulus numx numy
  refine ⟨by decide, ⟨by decide, by decide, by decide⟩, ⟨by decide, by decide, by decide⟩,
    fun fuel sum h => ?_⟩
  match fuel, h with
  | 0, h => simp [show ilBigNumAdd 0 numx numy (some modulus) = none from rfl] at h
  | 1, h => simp [show ilBigNumAdd 1 numx numy (some modulus) = none from rfl] at h
  | fuel + 2, h =>
    have hone : ilBigNumAdd (fuel + 2) numx numy (some modulus) = some ⟨false, [1]⟩ := rfl
    rw [hone] at h
    rw [← Option.some.inj h]
    decide

end Pnet.Support
