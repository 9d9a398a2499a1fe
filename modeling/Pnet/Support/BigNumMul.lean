import Pnet.Lib.Division
import Pnet.Support.BigNumDiv

/-! Multiplication, powers and inverses, each reduced by a modulus. -/
namespace Pnet.Support
open Pnet.Lib

/-! ### The product of the words -/

/-- One word of a row; neither the product nor the two additions overflow. -/
theorem toNat_mulCell (temp : ILUInt64) (x y p : ILUInt32) (htemp : temp.toNat < 2 ^ 32) :
    (temp + (x.setWidth 64 * y.setWidth 64 + p.setWidth 64)).toNat =
      temp.toNat + x.toNat * y.toNat + p.toNat := by
  have hmul := mul_word_le x y
  have hp : p.toNat < 2 ^ 32 := p.isLt
  rw [BitVec.toNat_add, BitVec.toNat_add, BitVec.toNat_mul, toNat_word64, toNat_word64,
    toNat_word64, Nat.mod_eq_of_lt (show x.toNat * y.toNat < 2 ^ 64 by omega),
    Nat.mod_eq_of_lt (show x.toNat * y.toNat + p.toNat < 2 ^ 64 by omega),
    Nat.mod_eq_of_lt (by omega)]
  ring

theorem toNat_carryCell (temp : ILUInt64) (p : ILUInt32) (htemp : temp.toNat < 2 ^ 32) :
    (temp + p.setWidth 64).toNat = temp.toNat + p.toNat := by
  have hp : p.toNat < 2 ^ 32 := p.isLt
  rw [BitVec.toNat_add, toNat_word64, Nat.mod_eq_of_lt (by omega)]

theorem length_mulAddRow (x : ILUInt32) (ys ps : List ILUInt32) (temp : ILUInt64) :
    (mulAddRow x ys ps temp).length = ps.length := by
  induction ps generalizing ys temp with
  | nil => cases ys <;> simp [mulAddRow]
  | cons p ps ih =>
    cases ys with
    | nil =>
      unfold mulAddRow
      split_ifs <;> simp [ih]
    | cons y ys => simp [mulAddRow, ih]

theorem value_mulAddRow (x : ILUInt32) (ys ps : List ILUInt32) (temp : ILUInt64)
    (hlen : ys.length ≤ ps.length) (htemp : temp.toNat < 2 ^ 32) :
    ∃ out : Nat, Radix.value (mulAddRow x ys ps temp) + (2 ^ 32) ^ ps.length * out =
      Radix.value ps + x.toNat * Radix.value ys + temp.toNat := by
  induction ps generalizing ys temp with
  | nil =>
    have hys : ys = [] := List.eq_nil_of_length_eq_zero (by simpa using hlen)
    subst hys
    exact ⟨temp.toNat, by simp [mulAddRow]⟩
  | cons p ps ih =>
    have hp : p.toNat < 2 ^ 32 := p.isLt
    have hpow : (2 ^ 32) ^ (ps.length + 1) = 2 ^ 32 * (2 ^ 32) ^ ps.length := Nat.pow_succ'
    simp only [List.length_cons, hpow, Radix.value_cons, Nat.mul_assoc]
    cases ys with
    | nil =>
      by_cases hzero : temp = 0
      · refine ⟨0, ?_⟩
        simp [mulAddRow, hzero]
      · have hcell := toNat_carryCell temp p htemp
        set temp' : ILUInt64 := temp + p.setWidth 64 with htemp'
        have hlow := toNat_low temp'
        have hhigh := toNat_high temp'
        have hsplit := Nat.mod_add_div temp'.toNat (2 ^ 32)
        obtain ⟨out, hout⟩ := ih [] (temp' >>> 32) (Nat.zero_le _) (by rw [hhigh]; omega)
        refine ⟨out, ?_⟩
        have hstep : mulAddRow x [] (p :: ps) temp =
            temp'.setWidth 32 :: mulAddRow x [] ps (temp' >>> 32) := by
          rw [mulAddRow, if_pos hzero]
        rw [hstep, Radix.value_cons]
        simp only [Radix.value_nil, Nat.mul_zero] at hout ⊢
        omega
    | cons y ys =>
      have hmul := mul_word_le x y
      have hcell := toNat_mulCell temp x y p htemp
      set temp' : ILUInt64 := temp + (x.setWidth 64 * y.setWidth 64 + p.setWidth 64) with htemp'
      have hlow := toNat_low temp'
      have hhigh := toNat_high temp'
      have hsplit := Nat.mod_add_div temp'.toNat (2 ^ 32)
      obtain ⟨out, hout⟩ := ih ys (temp' >>> 32) (by simpa using hlen) (by rw [hhigh]; omega)
      refine ⟨out, ?_⟩
      have hstep : mulAddRow x (y :: ys) (p :: ps) temp =
          temp'.setWidth 32 :: mulAddRow x ys ps (temp' >>> 32) := rfl
      have hdist : x.toNat * (y.toNat + 2 ^ 32 * Radix.value ys) =
          x.toNat * y.toNat + 2 ^ 32 * (x.toNat * Radix.value ys) := by ring
      rw [hstep, Radix.value_cons, Radix.value_cons, hdist]
      omega

/-- Before each row the product words that are left hold less than the weight of
`numy`, so a row carries nothing out. -/
theorem value_mulRows (xs ys ps : List ILUInt32) (hlen : ps.length = xs.length + ys.length)
    (hlt : Radix.value ps < (2 ^ 32) ^ ys.length) :
    Radix.value (mulRows xs ys ps) = Radix.value xs * Radix.value ys + Radix.value ps := by
  induction xs generalizing ps with
  | nil => simp [mulRows]
  | cons x xs ih =>
    have hzero : (0 : ILUInt64).toNat = 0 := rfl
    have hlen' : ps.length = xs.length + ys.length + 1 := by
      rw [hlen, List.length_cons]
      omega
    obtain ⟨out, hout⟩ := value_mulAddRow x ys ps 0 (by omega) (by decide)
    rw [hzero, Nat.add_zero] at hout
    have hrowLen := length_mulAddRow x ys ps 0
    -- the row fits in one word more than `numy` has
    have hrow : Radix.value ps + x.toNat * Radix.value ys < (2 ^ 32) ^ (ys.length + 1) := by
      have hx : x.toNat + 1 ≤ 2 ^ 32 := x.isLt
      have hy := Radix.value_lt ys
      calc Radix.value ps + x.toNat * Radix.value ys
          < (2 ^ 32) ^ ys.length + x.toNat * (2 ^ 32) ^ ys.length :=
            Nat.add_lt_add_of_lt_of_le hlt (Nat.mul_le_mul_left _ hy.le)
        _ = (x.toNat + 1) * (2 ^ 32) ^ ys.length := by ring
        _ ≤ 2 ^ 32 * (2 ^ 32) ^ ys.length := Nat.mul_le_mul_right _ hx
        _ = _ := Nat.pow_succ'.symm
    have hfits : (2 ^ 32) ^ (ys.length + 1) ≤ (2 ^ 32) ^ ps.length :=
      Nat.pow_le_pow_right (by decide) (by omega)
    have hnone : out = 0 := by
      rcases Nat.eq_zero_or_pos out with hz | hpos
      · exact hz
      · have hmul := Nat.mul_le_mul_left ((2 ^ 32) ^ ps.length) (Nat.succ_le_of_lt hpos)
        omega
    rw [hnone, Nat.mul_zero, Nat.add_zero] at hout
    obtain ⟨p, ps', hcons⟩ := List.exists_cons_of_length_eq_add_one (hrowLen.trans hlen')
    have hlen'' : ps'.length = xs.length + ys.length := by
      have := hrowLen.trans hlen'
      rw [hcons, List.length_cons] at this
      omega
    rw [hcons, Radix.value_cons] at hout
    rw [pow_succ' (2 ^ 32 : Nat) ys.length] at hrow
    have hrest := ih ps' hlen'' (by omega)
    simp only [mulRows, hcons, Radix.value_cons, hrest]
    have hdist : (x.toNat + 2 ^ 32 * Radix.value xs) * Radix.value ys =
        x.toNat * Radix.value ys + 2 ^ 32 * (Radix.value xs * Radix.value ys) := by ring
    rw [hdist]
    omega

theorem toInt_product (numx numy : ILBigNum) :
    (normalizeBigNum ⟨numx.neg ^^ numy.neg,
      mulRows numx.words numy.words (List.replicate (numx.size + numy.size) 0)⟩).toInt =
      numx.toInt * numy.toInt := by
  have hzero : Radix.value (List.replicate (numx.size + numy.size) (0 : ILUInt32)) = 0 :=
    Radix.value_replicate_zero _
  have hvalue := value_mulRows numx.words numy.words
    (List.replicate (numx.size + numy.size) (0 : ILUInt32)) (by simp [ILBigNum.size])
    (by rw [hzero]; exact Nat.pow_pos (by decide))
  rw [hzero, Nat.add_zero] at hvalue
  rw [toInt_normalizeBigNum, toInt_eq_sign_mul, hvalue, toInt_eq_sign_mul numx,
    toInt_eq_sign_mul numy]
  push_cast
  cases numx.neg <;> cases numy.neg <;> simp

theorem ilBigNumMul_none (numx numy : ILBigNum) :
    ∃ product, ilBigNumMul numx numy none = some product ∧ product.Normalized ∧
      product.toInt = numx.toInt * numy.toInt := by
  by_cases hsize : numx.size + numy.size = 0
  · have hx : numx.words = [] := List.eq_nil_of_length_eq_zero (Nat.eq_zero_of_add_eq_zero_right hsize)
    refine ⟨ilBigNumFromInt 0, by simp [ilBigNumMul, hsize], normalized_fromInt 0, ?_⟩
    rw [toInt_of_nil hx, Int.zero_mul]
    exact toInt_fromInt 0
  · refine ⟨_, ?_, normalized_normalizeBigNum _, toInt_product numx numy⟩
    rw [ilBigNumMul, if_neg hsize]

/-- A product that is not negative comes out reduced. -/
theorem ilBigNumMul_some (numx numy modulus : ILBigNum) (hm : modulus.Normalized)
    (hpos : 0 < modulus.toInt) (hnonneg : 0 ≤ numx.toInt * numy.toInt) :
    ∃ product, ilBigNumMul numx numy (some modulus) = some product ∧ modulus.Residue product ∧
      product.toInt = numx.toInt * numy.toInt % modulus.toInt := by
  by_cases hsize : numx.size + numy.size = 0
  · have hx : numx.words = [] := List.eq_nil_of_length_eq_zero (Nat.eq_zero_of_add_eq_zero_right hsize)
    have hzero : numx.toInt * numy.toInt = 0 := by rw [toInt_of_nil hx, Int.zero_mul]
    have hint : (ilBigNumFromInt 0).toInt = 0 := toInt_fromInt 0
    refine ⟨ilBigNumFromInt 0, by simp [ilBigNumMul, hsize],
      ⟨normalized_fromInt 0, hint.ge, by rw [hint]; exact hpos⟩, ?_⟩
    rw [hint, hzero, Int.zero_emod]
  · have hvalue := toInt_product numx numy
    set product := normalizeBigNum ⟨numx.neg ^^ numy.neg,
      mulRows numx.words numy.words (List.replicate (numx.size + numy.size) 0)⟩ with hproduct
    have hnorm : product.Normalized := normalized_normalizeBigNum _
    have hpneg := neg_eq_false_of_nonneg hnorm (by rw [hvalue]; exact hnonneg)
    have hmneg := neg_eq_false_of_pos hpos
    have hcompare := ilBigNumCompareAbs_nonneg_iff product modulus hnorm.1 hm.1
    have hsame : ilBigNumCompare product modulus = ilBigNumCompareAbs product modulus := by
      simp [ilBigNumCompare, hpneg, hmneg]
    rw [← hvalue]
    rw [ilBigNumMul, if_neg hsize, ← hproduct]
    simp only [hsame]
    by_cases hge : ilBigNumCompareAbs product modulus ≥ 0
    · obtain ⟨q, r, hdiv, -, hr, -, hrneg, hsplit, hlt⟩ :=
        divRem_value product modulus hnorm hm hpneg hmneg (words_ne_nil_of_pos hpos)
      rw [if_pos hge, hdiv]
      have hrint := toInt_of_not_neg hrneg
      have hmint := toInt_of_not_neg hmneg
      refine ⟨r, rfl, ⟨hr, by omega, by omega⟩, ?_⟩
      rw [hrint, hmint, toInt_of_not_neg hpneg, hsplit]
      push_cast
      rw [Int.add_comm, Int.add_mul_emod_self_right, Int.emod_eq_of_lt (by omega) (by omega)]
    · have hlt : product.toInt < modulus.toInt := by
        rw [toInt_of_not_neg hpneg, toInt_of_not_neg hmneg]
        have := mt hcompare.mpr hge
        omega
      rw [if_neg hge]
      have h0 : 0 ≤ product.toInt := by rw [hvalue]; exact hnonneg
      exact ⟨product, rfl, ⟨hnorm, h0, hlt⟩, (Int.emod_eq_of_lt h0 hlt).symm⟩

/-! ### The extended Euclid loop -/

theorem gcdSubtract_spec (u v q : ILBigNum) (hu : u.Normalized) :
    ∃ t, gcdSubtract u v q = some t ∧ t.Normalized ∧ t.toInt = u.toInt - v.toInt * q.toInt := by
  obtain ⟨temp, hmul, htemp, hproduct⟩ := ilBigNumMul_none v q
  obtain ⟨t, hsub, ht, hdiff⟩ := ilBigNumSub_none 0 u temp hu htemp
  refine ⟨t, ?_, ht, by rw [hdiff, hproduct]⟩
  simp [gcdSubtract, hmul, hsub]

/-- `v3` decreases, so more rounds than it are enough. -/
theorem invLoop_spec (x m : Int) (hm : 1 < m) (hgcd : Int.gcd x m = 1) (fuel : Nat)
    (u1 u2 u3 v1 v2 v3 : ILBigNum) (hu1 : u1.Normalized) (hu2 : u2.Normalized)
    (hu3 : u3.Normalized) (hv1 : v1.Normalized) (hv2 : v2.Normalized) (hv3 : v3.Normalized)
    (hstate : EuclidState x m u1.toInt u3.toInt v1.toInt v3.toInt) (hfuel : v3.toInt < fuel) :
    ∃ inv, invLoop fuel u1 u2 u3 v1 v2 v3 = some inv ∧ inv.Normalized ∧
      inv.toInt * x % m = 1 ∧ |inv.toInt| < m := by
  induction fuel generalizing u1 u2 u3 v1 v2 v3 with
  | zero =>
    have := hstate.nonneg_v
    omega
  | succ fuel ih =>
    have hvneg := neg_eq_false_of_nonneg hv3 hstate.nonneg_v
    have hvint := toInt_of_not_neg hvneg
    by_cases hzero : v3.words = []
    · refine ⟨u1, by simp [invLoop, ilBigNumIsZero, ILBigNum.size, hzero], hu1, ?_⟩
      rw [hzero, Radix.value_nil] at hvint
      rw [hvint] at hstate
      exact hstate.done hm hgcd
    · have huneg := neg_eq_false_of_nonneg hu3 hstate.nonneg_u
      obtain ⟨q, r, hdiv, -, -, hqneg, hrneg, hsplit, hlt⟩ :=
        divRem_value u3 v3 hu3 hv3 huneg hvneg hzero
      obtain ⟨t1, ht1, hn1, he1⟩ := gcdSubtract_spec u1 v1 q hu1
      obtain ⟨t2, ht2, hn2, -⟩ := gcdSubtract_spec u2 v2 q hu2
      obtain ⟨t3, ht3, hn3, he3⟩ := gcdSubtract_spec u3 v3 q hu3
      have hround : u3.toInt = q.toInt * v3.toInt + Radix.value r.words := by
        rw [toInt_of_not_neg huneg, hvint, toInt_of_not_neg hqneg]
        exact_mod_cast hsplit
      obtain ⟨hnext, hrem⟩ := hstate.step hround (by omega) (by omega)
      rw [← he1, ← he3] at hnext
      obtain ⟨inv, hinv, hspec⟩ := ih v1 v2 v3 t1 t2 t3 hv1 hv2 hv3 hn1 hn2 hn3 hnext (by omega)
      refine ⟨inv, ?_, hspec⟩
      rw [invLoop, if_neg (by simpa [ilBigNumIsZero, ILBigNum.size] using hzero)]
      simp [hdiv, ht1, ht2, ht3, hinv]

theorem normalized_copy {num : ILBigNum} (h : num.Normalized) :
    (ilBigNumCopy num).Normalized ∧ (ilBigNumCopy num).toInt = num.toInt := by
  unfold ilBigNumCopy
  split
  · rename_i hsize
    have hnil : num.words = [] := List.eq_nil_of_length_eq_zero hsize
    exact ⟨normalized_fromInt 0, (toInt_fromInt 0).trans (toInt_of_nil hnil).symm⟩
  · exact ⟨h, rfl⟩

theorem ilBigNumInv_spec (num modulus : ILBigNum) (hx : num.Normalized) (hm : modulus.Normalized)
    (hnonneg : 0 ≤ num.toInt) (hone : 1 < modulus.toInt)
    (hgcd : Int.gcd num.toInt modulus.toInt = 1) (fuel : Nat) (hfuel : modulus.toInt < fuel) :
    ∃ inv, ilBigNumInv fuel num modulus = some inv ∧ modulus.Residue inv ∧
      num.toInt * inv.toInt % modulus.toInt = 1 := by
  obtain ⟨hcx, hcxint⟩ := normalized_copy hx
  obtain ⟨hcm, hcmint⟩ := normalized_copy hm
  have h1 : (ilBigNumFromInt 1).toInt = 1 := toInt_fromInt 1
  have h0 : (ilBigNumFromInt 0).toInt = 0 := toInt_fromInt 0
  obtain ⟨u1, hloop, hu1, hmod, habs⟩ := invLoop_spec num.toInt modulus.toInt hone hgcd fuel
    (ilBigNumFromInt 1) (ilBigNumFromInt 0) (ilBigNumCopy num) (ilBigNumFromInt 0)
    (ilBigNumFromInt 1) (ilBigNumCopy modulus) (normalized_fromInt 1) (normalized_fromInt 0) hcx
    (normalized_fromInt 0) (normalized_fromInt 1) hcm
    (by rw [h1, h0, hcxint, hcmint]; exact EuclidState.init hnonneg (by omega))
    (by rw [hcmint]; exact hfuel)
  obtain ⟨hlo, hhi⟩ := abs_lt.mp habs
  cases hneg : u1.neg with
  | false =>
    refine ⟨u1, ?_, ⟨hu1, ?_, hhi⟩, by rw [Int.mul_comm, hmod]⟩
    · rw [ilBigNumInv, hloop]
      simp [hneg]
    · rw [toInt_of_not_neg hneg]
      omega
  | true =>
    obtain ⟨sum, hadd, hsum, hvalue⟩ := ilBigNumAdd_none 0 modulus u1 hm hu1
    have hle : u1.toInt < 0 := by
      have hne : u1.words ≠ [] := fun hnil => by simp [hu1.2 hnil] at hneg
      have hv : Radix.value u1.words ≠ 0 := fun hz => hne ((Radix.value_eq_zero_iff hu1.1).mp hz)
      rw [ILBigNum.toInt, if_pos hneg]
      omega
    refine ⟨sum, ?_, ⟨hsum, by omega, by omega⟩, ?_⟩
    · rw [ilBigNumInv, hloop]
      simp [hneg, hadd]
    · rw [hvalue, Int.mul_add, Int.add_comm, Int.add_mul_emod_self_right, Int.mul_comm, hmod]

/-! ### Powers -/

theorem toNat_mask (b : Nat) (hb : b < 32) : ((1 : ILUInt32) <<< b).toNat = 2 ^ b := by
  have hlt : 2 ^ b < 2 ^ 32 := Nat.pow_lt_pow_right (by decide) hb
  rw [BitVec.toNat_shiftLeft, Nat.shiftLeft_eq]
  change 1 * 2 ^ b % 2 ^ 32 = 2 ^ b
  rw [Nat.one_mul, Nat.mod_eq_of_lt hlt]

theorem bitTest_iff (word : ILUInt32) (b : Nat) (hb : b < 32) :
    word &&& ((1 : ILUInt32) <<< b) ≠ 0 ↔ word.toNat / 2 ^ b % 2 = 1 := by
  have hpow := Nat.two_pow_pos b
  rw [ne_eq, ← BitVec.toNat_inj, BitVec.toNat_and, toNat_mask b hb, Nat.and_comm, Nat.two_pow_and,
    Nat.testBit_eq_decide_div_mod_eq]
  change ¬ 2 ^ b * _ = 0 ↔ _
  by_cases hodd : word.toNat / 2 ^ b % 2 = 1
  · simp [hodd]
  · simp [hodd]

/-- Everything from bit `b` up is zero. -/
theorem breakTest_iff (word : ILUInt32) (b : Nat) (hb : b < 32) :
    (word &&& ((1 : ILUInt32) <<< b - 1) == word) = true ↔ word.toNat < 2 ^ b := by
  have hpow := Nat.two_pow_pos b
  have hmask := toNat_mask b hb
  have hlow : ((1 : ILUInt32) <<< b - 1).toNat = 2 ^ b - 1 := by bv_omega
  rw [beq_iff_eq, ← BitVec.toNat_inj, BitVec.toNat_and, hlow, Nat.and_two_pow_sub_one_eq_mod]
  constructor
  · intro h
    rw [← h]
    exact Nat.mod_lt _ hpow
  · exact Nat.mod_eq_of_lt

section
variable {modulus : ILBigNum}

/-- The exponent that is left when bit `b` of `word` is reached: `rest` is what
the words above hold. -/
def restExponent (word : ILUInt32) (rest b : Nat) : Nat :=
  word.toNat / 2 ^ b + 2 ^ (32 - b) * rest

theorem restExponent_step (word : ILUInt32) (rest b : Nat) (hb : b < 32) :
    restExponent word rest b = 2 * restExponent word rest (b + 1) + word.toNat / 2 ^ b % 2 := by
  have hdiv : word.toNat / 2 ^ (b + 1) = word.toNat / 2 ^ b / 2 := by
    rw [Nat.pow_succ, Nat.div_div_eq_div_mul]
  have hpow : (2 : Nat) ^ (32 - b) = 2 * 2 ^ (32 - (b + 1)) := by
    rw [← Nat.pow_succ']
    congr 1
    omega
  unfold restExponent
  rw [hdiv, hpow, Nat.mul_assoc]
  omega

theorem powBits_succ (word : ILUInt32) (isTop : Bool) (modulus : Option ILBigNum) (bits : Nat)
    (mask : ILUInt32) (result power : ILBigNum) :
    powBits word isTop modulus (bits + 1) mask result power =
      (if word &&& mask ≠ 0 then ilBigNumMul result power modulus else some result).bind
        fun result =>
          if isTop && word &&& (mask - 1) == word then some (result, power)
          else (ilBigNumMul power power modulus).bind fun power =>
            powBits word isTop modulus bits (mask <<< 1) result power := by
  rw [powBits]
  split <;> rfl

/-- `result` times what `power` still has to contribute stays the same modulo the
modulus. A negative base is squared before it is used only for an even exponent. -/
theorem powBits_spec (hm : modulus.Normalized) (hone : 1 < modulus.toInt) (word : ILUInt32)
    (isTop : Bool) (rest : Nat) (hrest : isTop = true → rest = 0) (bits b : Nat)
    (hbits : bits + b = 32) (result power : ILBigNum) (hresult : modulus.Residue result)
    (hsign : 0 ≤ power.toInt ∨ Even (restExponent word rest b)) :
    ∃ result' power', powBits word isTop (some modulus) bits ((1 : ILUInt32) <<< b) result power =
        some (result', power') ∧ modulus.Residue result' ∧ (0 ≤ power'.toInt ∨ Even rest) ∧
      result'.toInt * power'.toInt ^ rest ≡
        result.toInt * power.toInt ^ restExponent word rest b [ZMOD modulus.toInt] := by
  induction bits generalizing b result power with
  | zero =>
    have hb : b = 32 := by omega
    subst hb
    have hlast : restExponent word rest 32 = rest := by
      have hlt : word.toNat < 2 ^ 32 := word.isLt
      rw [restExponent, Nat.div_eq_of_lt hlt]
      simp
    rw [hlast] at hsign ⊢
    exact ⟨result, power, rfl, hresult, hsign, Int.ModEq.refl _⟩
  | succ bits ih =>
    have hb : b < 32 := by omega
    have hstep := restExponent_step word rest b hb
    have hbit := bitTest_iff word b hb
    -- the multiplication for this bit
    obtain ⟨result1, hmul, hres1, hmod1⟩ : ∃ result1,
        (if word &&& ((1 : ILUInt32) <<< b) ≠ 0 then ilBigNumMul result power (some modulus)
          else some result) = some result1 ∧ modulus.Residue result1 ∧
        result1.toInt ≡ result.toInt * power.toInt ^ (word.toNat / 2 ^ b % 2)
          [ZMOD modulus.toInt] := by
      by_cases hset : word.toNat / 2 ^ b % 2 = 1
      · have hpos : 0 ≤ power.toInt := by
          refine hsign.resolve_right fun heven => ?_
          rw [hstep, hset, Nat.even_iff] at heven
          omega
        obtain ⟨product, hprod, hres, hvalue⟩ := ilBigNumMul_some result power modulus hm
          (by omega) (Int.mul_nonneg hresult.nonneg hpos)
        refine ⟨product, by rw [if_pos (hbit.mpr hset), hprod], hres, ?_⟩
        rw [hvalue, hset, pow_one]
        exact Int.mod_modEq _ _
      · have hclear : word.toNat / 2 ^ b % 2 = 0 := by omega
        refine ⟨result, by rw [if_neg (fun h => hset (hbit.mp h))], hresult, ?_⟩
        rw [hclear, pow_zero, mul_one]
    by_cases hbreak : isTop && word &&& ((1 : ILUInt32) <<< b - 1) == word
    · obtain ⟨htop, hlow⟩ := Bool.and_eq_true_iff.mp hbreak
      have hzero : rest = 0 := hrest htop
      have hexp : restExponent word rest b = 0 := by
        rw [restExponent, hzero, Nat.div_eq_of_lt ((breakTest_iff word b hb).mp hlow)]
        simp
      refine ⟨result1, power, ?_, hres1, .inr (by simp [hzero]), ?_⟩
      · rw [powBits_succ, hmul, Option.bind_some, if_pos hbreak]
      · have hclear : word.toNat / 2 ^ b % 2 = 0 := by omega
        rw [hclear] at hmod1
        rw [hexp, hzero]
        simpa using hmod1
    · obtain ⟨power1, hsquare, hpres, hpvalue⟩ := ilBigNumMul_some power power modulus hm (by omega)
        (mul_self_nonneg _)
      obtain ⟨result', power', hloop, hres', hsign', hmod'⟩ := ih (b + 1) (by omega) result1 power1
        hres1 (.inl hpres.nonneg)
      refine ⟨result', power', ?_, hres', hsign', hmod'.trans ?_⟩
      · rw [powBits_succ, hmul, Option.bind_some, if_neg hbreak, hsquare, Option.bind_some,
          ← BitVec.shiftLeft_add, hloop]
      · rw [hstep, pow_add, mul_comm 2, pow_mul', ← mul_assoc, mul_right_comm]
        refine Int.ModEq.mul hmod1 (Int.ModEq.pow _ ?_)
        rw [hpvalue, pow_two]
        exact Int.mod_modEq _ _

theorem restExponent_zero (word : ILUInt32) (rest : Nat) :
    restExponent word rest 0 = word.toNat + 2 ^ 32 * rest := by
  simp [restExponent]

theorem powWords_spec (hm : modulus.Normalized) (hone : 1 < modulus.toInt)
    (words : List ILUInt32) (result power : ILBigNum) (hresult : modulus.Residue result)
    (hsign : 0 ≤ power.toInt ∨ Even (Radix.value words)) :
    ∃ result', powWords (some modulus) words result power = some result' ∧
      modulus.Residue result' ∧
      result'.toInt ≡ result.toInt * power.toInt ^ Radix.value words [ZMOD modulus.toInt] := by
  induction words generalizing result power with
  | nil => exact ⟨result, rfl, hresult, by simp⟩
  | cons word words ih =>
    have htop : words.isEmpty = true → Radix.value words = 0 := by
      intro h
      rw [List.isEmpty_iff.mp h, Radix.value_nil]
    rw [Radix.value_cons, ← restExponent_zero] at hsign ⊢
    obtain ⟨result1, power1, hbits, hres1, hsign1, hmod1⟩ := powBits_spec hm hone word
      words.isEmpty (Radix.value words) htop 32 0 rfl result power hresult hsign
    obtain ⟨result', hwords, hres', hmod'⟩ := ih result1 power1 hres1 hsign1
    refine ⟨result', ?_, hres', hmod'.trans hmod1⟩
    have hmask : (1 : ILUInt32) <<< 0 = 1 := rfl
    rw [hmask] at hbits
    rw [powWords, hbits]
    exact hwords

theorem ilBigNumPow_spec (hm : modulus.Normalized) (hone : 1 < modulus.toInt)
    (numx numy : ILBigNum) (hx : numx.Normalized) (hyneg : numy.neg = false)
    (hsign : 0 ≤ numx.toInt ∨ Even (Radix.value numy.words)) (fuel : Nat) :
    ∃ power, ilBigNumPow fuel numx numy (some modulus) = some power ∧ modulus.Residue power ∧
      power.toInt = numx.toInt ^ Radix.value numy.words % modulus.toInt := by
  have hint : (ilBigNumFromInt 1).toInt = 1 := toInt_fromInt 1
  have hstart : modulus.Residue (ilBigNumFromInt 1) :=
    ⟨normalized_fromInt 1, by rw [hint]; decide, by rw [hint]; exact hone⟩
  obtain ⟨-, hcopy⟩ := normalized_copy hx
  obtain ⟨power, hwords, hres, hmod⟩ := powWords_spec hm hone numy.words (ilBigNumFromInt 1)
    (ilBigNumCopy numx) hstart (by rw [hcopy]; exact hsign)
  rw [hcopy, hint, one_mul] at hmod
  refine ⟨power, ?_, hres, ?_⟩
  · rw [ilBigNumPow, hwords]
    simp [hyneg]
  · rw [← hmod, Int.emod_eq_of_lt hres.nonneg hres.lt]

end

/-- Products are exact without a modulus. Under a modulus a product or a power
that is not negative comes out reduced, and a non-negative number prime to the
modulus is inverted. -/
theorem ilBigNum_modulus (numx numy modulus : ILBigNum) (hx : numx.Normalized)
    (hy : numy.Normalized) (hm : modulus.Normalized) (hone : 1 < modulus.toInt) :
    (∃ product, ilBigNumMul numx numy none = some product ∧ product.Normalized ∧
        product.toInt = numx.toInt * numy.toInt) ∧
      (0 ≤ numx.toInt * numy.toInt →
        ∃ product, ilBigNumMul numx numy (some modulus) = some product ∧
          modulus.Residue product ∧ product.toInt = numx.toInt * numy.toInt % modulus.toInt) ∧
      (0 ≤ numy.toInt → 0 ≤ numx.toInt ^ numy.toInt.toNat → ∀ fuel,
        ∃ power, ilBigNumPow fuel numx numy (some modulus) = some power ∧
          modulus.Residue power ∧
          power.toInt = numx.toInt ^ numy.toInt.toNat % modulus.toInt) ∧
      (0 ≤ numx.toInt → Int.gcd numx.toInt modulus.toInt = 1 → ∀ fuel : Nat,
        modulus.toInt < fuel →
          ∃ inv, ilBigNumInv fuel numx modulus = some inv ∧ modulus.Residue inv ∧
            numx.toInt * inv.toInt % modulus.toInt = 1) := by
  refine ⟨ilBigNumMul_none numx numy,
    ilBigNumMul_some numx numy modulus hm (by omega), fun hynonneg hpow fuel => ?_,
    fun hxnonneg hgcd fuel => ilBigNumInv_spec numx modulus hx hm hxnonneg hone hgcd fuel⟩
  have hyneg := neg_eq_false_of_nonneg hy hynonneg
  have hexp : numy.toInt.toNat = Radix.value numy.words := by
    rw [toInt_of_not_neg hyneg, Int.toNat_natCast]
  rw [hexp] at hpow ⊢
  refine ilBigNumPow_spec hm hone numx numy hx hyneg ?_ fuel
  by_contra hboth
  obtain ⟨hxneg, hodd⟩ := not_or.mp hboth
  exact absurd hpow (not_le_of_gt ((Nat.not_even_iff_odd.mp hodd).pow_neg (by omega)))

theorem ilBigNum_modulus_seven :
    ∃ power, ilBigNumPow 0 ⟨false, [3]⟩ ⟨false, [5]⟩ (some ⟨false, [7]⟩) = some power ∧
      (⟨false, [7]⟩ : ILBigNum).Residue power ∧
      power.toInt = (⟨false, [3]⟩ : ILBigNum).toInt ^ (⟨false, [5]⟩ : ILBigNum).toInt.toNat %
        (⟨false, [7]⟩ : ILBigNum).toInt :=
  (ilBigNum_modulus ⟨false, [3]⟩ ⟨false, [5]⟩ ⟨false, [7]⟩ (by decide) (by decide) (by decide)
    (by decide)).2.2.1 (by decide) (by decide) 0

/-- `-1` times `1` under `3`: a negative product is below the modulus, so it is
returned as it is. -/
theorem ilBigNumMul_negative :
    (⟨true, [1]⟩ : ILBigNum).Normalized ∧
      ∀ product, ilBigNumMul ⟨true, [1]⟩ ⟨false, [1]⟩ (some ⟨false, [3]⟩) = some product →
        product.toInt ≠ (⟨true, [1]⟩ : ILBigNum).toInt * (⟨false, [1]⟩ : ILBigNum).toInt %
          (⟨false, [3]⟩ : ILBigNum).toInt := by
  refine ⟨by decide, fun product h => ?_⟩
  have hself : ilBigNumMul ⟨true, [1]⟩ ⟨false, [1]⟩ (some ⟨false, [3]⟩) = some ⟨true, [1]⟩ := rfl
  rw [hself] at h
  rw [← Option.some.inj h]
  decide

end Pnet.Support
