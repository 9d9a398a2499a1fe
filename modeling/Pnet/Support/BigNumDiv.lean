import Mathlib.Data.Nat.Bitwise
import Pnet.Support.BigNumArith
import Pnet.Support.Words

/-! Multi-word division. The quotient digit is underestimated from the top
words and then corrected, so one window invariant carries the whole loop: the
window stays below the divisor times the word base. -/
namespace Pnet.Support
open Pnet.Lib

/-! ### Division by a single word -/

theorem divSingle_spec (divisor : ILUInt32) (xs : List ILUInt32) (temp : ILUInt64)
    (htemp : temp.toNat < divisor.toNat) :
    (divSingle divisor xs temp).2.toNat < divisor.toNat ∧
      (divSingle divisor xs temp).1.length = xs.length ∧
      Radix.value (divSingle divisor xs temp).1.reverse * divisor.toNat +
          (divSingle divisor xs temp).2.toNat =
        temp.toNat * (2 ^ 32) ^ xs.length + Radix.value xs.reverse := by
  induction xs generalizing temp with
  | nil => simp [divSingle, htemp]
  | cons x xs ih =>
    have hx : x.toNat < 2 ^ 32 := x.isLt
    have hd : divisor.toNat < 2 ^ 32 := divisor.isLt
    have hin := toNat_shiftIn temp x
    rw [Nat.mod_eq_of_lt (by omega)] at hin
    set temp' : ILUInt64 := (temp <<< 32) ||| x.setWidth 64 with htemp'
    have hmod : (temp' % divisor.setWidth 64).toNat = temp'.toNat % divisor.toNat := by
      rw [BitVec.toNat_umod, toNat_word64]
    have hquot : ((temp' / divisor.setWidth 64).setWidth 32 : ILUInt32).toNat =
        temp'.toNat / divisor.toNat := by
      rw [toNat_low, BitVec.toNat_udiv, toNat_word64, Nat.mod_eq_of_lt]
      rw [Nat.div_lt_iff_lt_mul (by omega), hin]
      have hmul := Nat.mul_le_mul_right (2 ^ 32) (Nat.succ_le_of_lt htemp)
      omega
    obtain ⟨hlt, hlen, hvalue⟩ := ih (temp' % divisor.setWidth 64)
      (by rw [hmod]; exact Nat.mod_lt _ (by omega))
    have hstep : divSingle divisor (x :: xs) temp =
        ((temp' / divisor.setWidth 64).setWidth 32 ::
          (divSingle divisor xs (temp' % divisor.setWidth 64)).1,
          (divSingle divisor xs (temp' % divisor.setWidth 64)).2) := rfl
    rw [hstep]
    refine ⟨hlt, by simp [hlen], ?_⟩
    have hdiv := Nat.div_add_mod temp'.toNat divisor.toNat
    simp only [List.reverse_cons, Radix.value_concat, List.length_reverse, List.length_cons, hlen,
      hquot, pow_succ (2 ^ 32 : Nat) xs.length]
    rw [hmod] at hvalue
    generalize (2 ^ 32) ^ xs.length = weight at hvalue ⊢
    calc _ = Radix.value (divSingle divisor xs (temp' % divisor.setWidth 64)).1.reverse *
              divisor.toNat + (divSingle divisor xs (temp' % divisor.setWidth 64)).2.toNat +
            weight * (divisor.toNat * (temp'.toNat / divisor.toNat)) := by ring
      _ = weight * (divisor.toNat * (temp'.toNat / divisor.toNat) + temp'.toNat % divisor.toNat) +
            Radix.value xs.reverse := by
          rw [hvalue]
          ring
      _ = _ := by
          rw [hdiv, hin]
          ring

/-! ### Normalization shifts -/

theorem topShift_spec (top : ILUInt32) (steps shift : Nat) (hsum : steps + shift = 32)
    (hpos : 0 < top.toNat) (hlt : top.toNat * 2 ^ shift < 2 ^ 32) :
    topShift top steps shift ≤ 31 ∧ 2 ^ 31 ≤ top.toNat * 2 ^ topShift top steps shift ∧
      top.toNat * 2 ^ topShift top steps shift < 2 ^ 32 := by
  induction steps generalizing shift with
  | zero =>
    have hshift : shift = 32 := by omega
    subst hshift
    omega
  | succ steps ih =>
    have hle : shift ≤ 31 := by omega
    have hsplit : (2 : Nat) ^ 31 = 2 ^ (31 - shift) * 2 ^ shift := by
      rw [← Nat.pow_add]
      congr 1
      omega
    have hmask : ((0x80000000 : ILUInt32) >>> shift).toNat = 2 ^ (31 - shift) := by
      rw [BitVec.toNat_ushiftRight, Nat.shiftRight_eq_div_pow]
      change 2 ^ 31 / 2 ^ shift = _
      rw [hsplit, Nat.mul_div_cancel _ (Nat.two_pow_pos shift)]
    -- below the bit under test nothing is left, so the bit decides the size
    have hdiv : top.toNat / 2 ^ (31 - shift) < 2 := by
      rw [Nat.div_lt_iff_lt_mul (Nat.two_pow_pos _)]
      by_contra hge
      have hmul := Nat.mul_le_mul_right (2 ^ shift) (Nat.le_of_not_lt hge)
      rw [Nat.mul_assoc, ← hsplit] at hmul
      omega
    have hbit : top &&& ((0x80000000 : ILUInt32) >>> shift) = 0 ↔ top.toNat < 2 ^ (31 - shift) := by
      rw [← BitVec.toNat_inj, BitVec.toNat_and, hmask, Nat.and_comm, Nat.two_pow_and,
        Nat.testBit_eq_decide_div_mod_eq]
      have hpow := Nat.two_pow_pos (31 - shift)
      rcases Nat.lt_or_ge top.toNat (2 ^ (31 - shift)) with hsmall | hbig
      · simp [Nat.div_eq_of_lt hsmall, hsmall]
      · have hone : top.toNat / 2 ^ (31 - shift) = 1 := by
          have hle := (Nat.one_le_div_iff hpow).mpr hbig
          omega
        simp [hone, hbig]
    unfold topShift
    split_ifs with hzero
    · refine ih (shift + 1) (by omega) ?_
      have hsmall := hbit.mp hzero
      have hmul := Nat.mul_lt_mul_of_pos_right hsmall (Nat.two_pow_pos shift)
      rw [← hsplit] at hmul
      rw [Nat.pow_succ, ← Nat.mul_assoc]
      omega
    · have hbig : 2 ^ (31 - shift) ≤ top.toNat := Nat.le_of_not_lt fun h => hzero (hbit.mpr h)
      have hmul := Nat.mul_le_mul_right (2 ^ shift) hbig
      rw [← hsplit] at hmul
      exact ⟨hle, hmul, hlt⟩

/-- What is shifted out on the left stays below `2 ^ shift`. -/
theorem shiftWords_spec (shift : Nat) (hshift : shift ≤ 31) (xs : List ILUInt32) (temp : ILUInt64)
    (htemp : temp.toNat < 2 ^ shift) :
    (shiftWords shift xs temp).1.length = xs.length ∧
      (shiftWords shift xs temp).2.toNat < 2 ^ shift ∧
      Radix.value (shiftWords shift xs temp).1 +
          (2 ^ 32) ^ xs.length * (shiftWords shift xs temp).2.toNat =
        Radix.value xs * 2 ^ shift + temp.toNat := by
  have hpow : 2 ^ shift ≤ 2 ^ 31 := Nat.pow_le_pow_right (by decide) hshift
  induction xs generalizing temp with
  | nil =>
    have hlow : temp.toNat % 2 ^ 32 = temp.toNat := Nat.mod_eq_of_lt (by omega)
    have hout : (shiftWords shift [] temp).2.toNat = temp.toNat := by
      rw [shiftWords, toNat_low, hlow]
    refine ⟨rfl, by rw [hout]; exact htemp, ?_⟩
    rw [hout]
    simp [shiftWords]
  | cons x xs ih =>
    have hx : x.toNat < 2 ^ 32 := x.isLt
    have hx64 := toNat_word64 x
    have hbound : x.toNat * 2 ^ shift + 2 ^ shift ≤ 2 ^ 32 * 2 ^ shift := by
      rw [← Nat.succ_mul]
      exact Nat.mul_le_mul_right _ hx
    have hfit : (2 : Nat) ^ 32 * 2 ^ shift ≤ 2 ^ 32 * 2 ^ 31 := Nat.mul_le_mul_left _ hpow
    have hmoved : (x.setWidth 64 <<< shift : ILUInt64).toNat = x.toNat * 2 ^ shift := by
      rw [Bits.toNat_shiftLeft_of_lt _ _ (by rw [hx64]; omega), hx64]
    have hjoin : (temp ||| (x.setWidth 64 <<< shift)).toNat = temp.toNat + x.toNat * 2 ^ shift := by
      rw [Bits.toNat_or_tag _ _ shift htemp (by rw [hmoved]; exact Nat.mul_mod_left _ _), hmoved]
    set temp' : ILUInt64 := temp ||| (x.setWidth 64 <<< shift) with htemp'
    have hhigh := toNat_high temp'
    have hnext : (temp' >>> 32).toNat < 2 ^ shift := by
      rw [hhigh, Nat.div_lt_iff_lt_mul (by decide), hjoin]
      rw [Nat.mul_comm (2 ^ 32)] at hbound
      omega
    obtain ⟨hlen, hout, hvalue⟩ := ih (temp' >>> 32) hnext
    have hstep : shiftWords shift (x :: xs) temp =
        (temp'.setWidth 32 :: (shiftWords shift xs (temp' >>> 32)).1,
          (shiftWords shift xs (temp' >>> 32)).2) := rfl
    rw [hstep]
    refine ⟨by simp [hlen], hout, ?_⟩
    have hsplit := Nat.mod_add_div temp'.toNat (2 ^ 32)
    simp only [Radix.value_cons, List.length_cons, toNat_low,
      pow_succ (2 ^ 32 : Nat) xs.length]
    rw [hhigh] at hvalue
    generalize (2 ^ 32) ^ xs.length = weight at hvalue ⊢
    calc _ = temp'.toNat % 2 ^ 32 + 2 ^ 32 * (Radix.value (shiftWords shift xs (temp' >>> 32)).1 +
              weight * (shiftWords shift xs (temp' >>> 32)).2.toNat) := by ring
      _ = temp'.toNat % 2 ^ 32 + 2 ^ 32 * (temp'.toNat / 2 ^ 32) +
            2 ^ 32 * (Radix.value xs * 2 ^ shift) := by
          rw [hvalue]
          ring
      _ = _ := by
          rw [hsplit, hjoin]
          ring

/-- One word of a right shift: the bits of `high` above `2 ^ shift` fall out of
the word. -/
theorem shiftRight_word (high x shift : Nat) (hx : x < 2 ^ 32) :
    (high * 2 ^ 32 + x) / 2 ^ shift % 2 ^ 32 = (high % 2 ^ shift * 2 ^ 32 + x) / 2 ^ shift := by
  have hpow := Nat.two_pow_pos shift
  have hsplit : high * 2 ^ 32 + x =
      2 ^ shift * (high / 2 ^ shift * 2 ^ 32) + (high % 2 ^ shift * 2 ^ 32 + x) := by
    have hdiv := Nat.div_add_mod high (2 ^ shift)
    calc high * 2 ^ 32 + x
        = (2 ^ shift * (high / 2 ^ shift) + high % 2 ^ shift) * 2 ^ 32 + x := by rw [hdiv]
      _ = _ := by ring
  have hlt : (high % 2 ^ shift * 2 ^ 32 + x) / 2 ^ shift < 2 ^ 32 := by
    rw [Nat.div_lt_iff_lt_mul hpow]
    have hmul := Nat.mul_le_mul_right (2 ^ 32) (Nat.succ_le_of_lt (Nat.mod_lt high hpow))
    rw [Nat.succ_mul] at hmul
    rw [Nat.mul_comm (2 ^ 32) (2 ^ shift)]
    omega
  rw [hsplit, Nat.mul_add_div hpow, Nat.add_comm, Nat.add_mul_mod_self_right, Nat.mod_eq_of_lt hlt]

theorem unshiftWords_spec (shift : Nat) (hshift : shift ≤ 31) (xs : List ILUInt32)
    (temp : ILUInt64) :
    (unshiftWords shift xs temp).length = xs.length ∧
      Radix.value (unshiftWords shift xs temp).reverse =
        (temp.toNat % 2 ^ shift * (2 ^ 32) ^ xs.length + Radix.value xs.reverse) / 2 ^ shift := by
  have hpow := Nat.two_pow_pos shift
  induction xs generalizing temp with
  | nil => simp [unshiftWords, Nat.div_eq_of_lt, Nat.mod_lt _ hpow]
  | cons x xs ih =>
    have hx : x.toNat < 2 ^ 32 := x.isLt
    have hdvd : 2 ^ shift ∣ 2 ^ 32 := Nat.pow_dvd_pow 2 (by omega)
    have hin := toNat_shiftIn temp x
    set temp' : ILUInt64 := (temp <<< 32) ||| x.setWidth 64 with htemp'
    obtain ⟨hlen, hvalue⟩ := ih temp'
    have hword : ((temp' >>> shift).setWidth 32 : ILUInt32).toNat =
        (temp.toNat % 2 ^ shift * 2 ^ 32 + x.toNat) / 2 ^ shift := by
      rw [toNat_low, BitVec.toNat_ushiftRight, Nat.shiftRight_eq_div_pow, hin,
        shiftRight_word _ _ _ hx, Nat.mod_mod_of_dvd _ hdvd]
    have hrest : temp'.toNat % 2 ^ shift = x.toNat % 2 ^ shift := by
      rw [hin, Nat.add_mod, Nat.mod_eq_zero_of_dvd (hdvd.mul_left _), Nat.zero_add, Nat.mod_mod]
    have hstep : unshiftWords shift (x :: xs) temp =
        (temp' >>> shift).setWidth 32 :: unshiftWords shift xs temp' := rfl
    rw [hstep]
    refine ⟨by simp [hlen], ?_⟩
    simp only [List.reverse_cons, Radix.value_concat, List.length_reverse, List.length_cons, hlen,
      hword, hvalue, hrest, pow_succ (2 ^ 32 : Nat) xs.length]
    generalize (2 ^ 32) ^ xs.length = weight
    -- the bits of the top word below `shift` move into the words under it
    have hmod : (temp.toNat % 2 ^ shift * 2 ^ 32 + x.toNat) % 2 ^ shift = x.toNat % 2 ^ shift := by
      rw [Nat.add_mod, Nat.mod_eq_zero_of_dvd (hdvd.mul_left _), Nat.zero_add, Nat.mod_mod]
    have hdiv := Nat.div_add_mod (temp.toNat % 2 ^ shift * 2 ^ 32 + x.toNat) (2 ^ shift)
    rw [hmod] at hdiv
    have hsplit : temp.toNat % 2 ^ shift * (weight * 2 ^ 32) +
          (Radix.value xs.reverse + weight * x.toNat) =
        2 ^ shift * (weight * ((temp.toNat % 2 ^ shift * 2 ^ 32 + x.toNat) / 2 ^ shift)) +
          (x.toNat % 2 ^ shift * weight + Radix.value xs.reverse) := by
      calc _ = weight * (temp.toNat % 2 ^ shift * 2 ^ 32 + x.toNat) + Radix.value xs.reverse := by
            ring
        _ = weight * (2 ^ shift * ((temp.toNat % 2 ^ shift * 2 ^ 32 + x.toNat) / 2 ^ shift) +
              x.toNat % 2 ^ shift) + Radix.value xs.reverse := by rw [hdiv]
        _ = _ := by ring
    rw [hsplit, Nat.mul_add_div hpow, Nat.add_comm]

/-! ### One quotient digit -/

theorem subCell_sum (x y : ILUInt32) :
    (x - (y + 1)).toNat + y.toNat + 1 =
      x.toNat + 2 ^ 32 * (if x - (y + 1) < x then false else true).toNat := by
  split <;> simp only [Bool.toNat_false, Bool.toNat_true] <;> bv_omega

/-- The last word of the window takes what is left of the product and the borrow. -/
theorem topCell (x : ILUInt32) (temp : ILUInt64) (carry : Bool) (htemp : temp.toNat < 2 ^ 32) :
    ∃ out : Nat, (x - (temp.setWidth 32 + if carry then 1 else 0)).toNat + temp.toNat +
      carry.toNat = x.toNat + 2 ^ 32 * out := by
  have hlow : (temp.setWidth 32 : ILUInt32).toNat = temp.toNat := by
    rw [toNat_low, Nat.mod_eq_of_lt htemp]
  generalize (temp.setWidth 32 : ILUInt32) = low at hlow ⊢
  rw [← hlow]
  cases carry with
  | false =>
    refine ⟨(if x - low > x then true else false).toNat, ?_⟩
    simpa using subCell x low
  | true =>
    refine ⟨(if x - (low + 1) < x then false else true).toNat, ?_⟩
    simpa using subCell_sum x low

theorem length_mulSubWords (d : ILUInt32) (ys xs : List ILUInt32) (temp : ILUInt64)
    (carry : Bool) : (mulSubWords d ys xs temp carry).length = xs.length := by
  induction xs generalizing ys temp carry with
  | nil => cases ys <;> simp [mulSubWords]
  | cons x xs ih => cases ys <;> cases carry <;> simp [mulSubWords, ih]

theorem value_mulSubWords (d : ILUInt32) (ys xs : List ILUInt32) (temp : ILUInt64) (carry : Bool)
    (hlen : xs.length = ys.length + 1) (htemp : temp.toNat < 2 ^ 32) :
    ∃ out : Nat, Radix.value (mulSubWords d ys xs temp carry) +
        (d.toNat * Radix.value ys + temp.toNat + carry.toNat) =
      Radix.value xs + (2 ^ 32) ^ xs.length * out := by
  induction ys generalizing xs temp carry with
  | nil =>
    obtain ⟨x, rfl⟩ := List.length_eq_one_iff.mp (by simpa using hlen)
    obtain ⟨out, hout⟩ := topCell x temp carry htemp
    refine ⟨out, ?_⟩
    simp only [mulSubWords, Radix.value_cons, Radix.value_nil, List.length_singleton, pow_one]
    omega
  | cons y ys ih =>
    obtain ⟨x, xs, rfl⟩ := List.exists_cons_of_length_eq_add_one hlen
    have htail : xs.length = ys.length + 1 := by simpa using hlen
    have hmul := mul_word_le d y
    have hprod := toNat_mulAdd temp y d htemp
    set temp' : ILUInt64 := temp + y.setWidth 64 * d.setWidth 64 with htemp'
    have hlow := toNat_low temp'
    have hhigh := toNat_high temp'
    have hsplit := Nat.mod_add_div temp'.toNat (2 ^ 32)
    have hnext : (temp' >>> 32).toNat < 2 ^ 32 := by
      rw [hhigh]
      omega
    have hdist : d.toNat * (y.toNat + 2 ^ 32 * Radix.value ys) =
        d.toNat * y.toNat + 2 ^ 32 * (d.toNat * Radix.value ys) := by ring
    have hpow : (2 ^ 32) ^ (xs.length + 1) = 2 ^ 32 * (2 ^ 32) ^ xs.length := Nat.pow_succ'
    simp only [List.length_cons, hpow, Radix.value_cons, hdist, Nat.mul_assoc]
    cases carry with
    | false =>
      obtain ⟨out, hout⟩ := ih xs (temp' >>> 32)
        (if x - (temp'.setWidth 32 : ILUInt32) > x then true else false) htail hnext
      refine ⟨out, ?_⟩
      have hcell := subCell x (temp'.setWidth 32)
      have hstep : mulSubWords d (y :: ys) (x :: xs) temp false =
          (x - temp'.setWidth 32) :: mulSubWords d ys xs (temp' >>> 32)
            (if x - (temp'.setWidth 32 : ILUInt32) > x then true else false) := rfl
      rw [hstep, Radix.value_cons]
      simp only [Bool.toNat_false]
      omega
    | true =>
      obtain ⟨out, hout⟩ := ih xs (temp' >>> 32)
        (if x - ((temp'.setWidth 32 : ILUInt32) + 1) < x then false else true) htail hnext
      refine ⟨out, ?_⟩
      have hcell := subCell_sum x (temp'.setWidth 32)
      have hstep : mulSubWords d (y :: ys) (x :: xs) temp true =
          (x - (temp'.setWidth 32 + 1)) :: mulSubWords d ys xs (temp' >>> 32)
            (if x - ((temp'.setWidth 32 : ILUInt32) + 1) < x then false else true) := rfl
      rw [hstep, Radix.value_cons]
      simp only [Bool.toNat_true]
      omega

/-- The product fits under the window: nothing wraps. -/
theorem value_mulSubWords_of_le (d : ILUInt32) (ys xs : List ILUInt32)
    (hlen : xs.length = ys.length + 1) (hle : d.toNat * Radix.value ys ≤ Radix.value xs) :
    Radix.value (mulSubWords d ys xs 0 false) = Radix.value xs - d.toNat * Radix.value ys := by
  obtain ⟨out, hout⟩ := value_mulSubWords d ys xs 0 false hlen (by decide)
  have hzero : (0 : ILUInt64).toNat = 0 := rfl
  rw [hzero, Bool.toNat_false, Nat.add_zero] at hout
  exact Radix.value_eq_sub (length_mulSubWords d ys xs 0 false) hout hle

theorem length_subWindow (ys xs : List ILUInt32) (carry : Bool) :
    (subWindow ys xs carry).length = xs.length := by
  induction xs generalizing ys carry with
  | nil => cases ys <;> simp [subWindow]
  | cons x xs ih => cases ys <;> cases carry <;> simp [subWindow, ih]

theorem value_subWindow (ys xs : List ILUInt32) (carry : Bool)
    (hlen : xs.length = ys.length + 1) :
    ∃ out : Nat, Radix.value (subWindow ys xs carry) + (Radix.value ys + carry.toNat) =
      Radix.value xs + (2 ^ 32) ^ xs.length * out := by
  induction ys generalizing xs carry with
  | nil =>
    obtain ⟨x, rfl⟩ := List.length_eq_one_iff.mp (by simpa using hlen)
    cases carry with
    | false => exact ⟨0, by simp [subWindow]⟩
    | true =>
      refine ⟨(if x - 1 ≠ maxUInt32 then false else true).toNat, ?_⟩
      have hcell := predCell x
      simp only [subWindow, ↓reduceIte, Radix.value_cons, Radix.value_nil, List.length_singleton,
        pow_one, Bool.toNat_true]
      omega
  | cons y ys ih =>
    obtain ⟨x, xs, rfl⟩ := List.exists_cons_of_length_eq_add_one hlen
    have htail : xs.length = ys.length + 1 := by simpa using hlen
    have hpow : (2 ^ 32) ^ (xs.length + 1) = 2 ^ 32 * (2 ^ 32) ^ xs.length := Nat.pow_succ'
    simp only [List.length_cons, hpow, Radix.value_cons, Nat.mul_assoc]
    cases carry with
    | false =>
      obtain ⟨out, hout⟩ := ih xs (if x - y > x then true else false) htail
      refine ⟨out, ?_⟩
      have hcell := subCell x y
      simp only [subWindow, Bool.false_eq_true, ↓reduceIte, Radix.value_cons, Bool.toNat_false]
      omega
    | true =>
      obtain ⟨out, hout⟩ := ih xs (if x - (y + 1) < x then false else true) htail
      refine ⟨out, ?_⟩
      have hcell := subCell_sum x y
      simp only [subWindow, ↓reduceIte, Radix.value_cons, Bool.toNat_true]
      omega

theorem value_subWindow_of_le (ys xs : List ILUInt32) (hlen : xs.length = ys.length + 1)
    (hle : Radix.value ys ≤ Radix.value xs) :
    Radix.value (subWindow ys xs false) = Radix.value xs - Radix.value ys := by
  obtain ⟨out, hout⟩ := value_subWindow ys xs false hlen
  rw [Bool.toNat_false, Nat.add_zero] at hout
  exact Radix.value_eq_sub (length_subWindow ys xs false) hout hle

theorem bigRangeGe_go_iff (xs ys : List ILUInt32) (hlen : xs.length = ys.length) :
    bigRangeGe.go xs ys = true ↔ compareWords xs ys ≥ 0 := by
  induction xs generalizing ys with
  | nil =>
    have hys : ys = [] := List.eq_nil_of_length_eq_zero hlen.symm
    subst hys
    simp [bigRangeGe.go, compareWords]
  | cons x xs ih =>
    cases ys with
    | nil => simp at hlen
    | cons y ys =>
      have htail := ih ys (by simpa using hlen)
      simp only [bigRangeGe.go, compareWords]
      by_cases hgt : x > y
      · have hnlt : ¬ x < y := by bv_omega
        simp [hgt, hnlt]
      · by_cases hlt : x < y
        · simp [hlt, hgt]
        · simpa [hlt, hgt] using htail

theorem bigRangeGe_iff (xs ys : List ILUInt32) (hlen : xs.length = ys.length) :
    bigRangeGe xs ys = true ↔ Radix.value ys ≤ Radix.value xs := by
  have hspec := (compareWords_spec xs.reverse ys.reverse (by simpa using hlen)).1
  rw [bigRangeGe, bigRangeGe_go_iff _ _ (by simpa using hlen)]
  simp only [List.reverse_reverse] at hspec
  omega

/-- The loop condition of the correction: the divisor still goes into the window. -/
theorem correction_condition_iff (normy window : List ILUInt32)
    (hlen : window.length = normy.length + 1) :
    (window.getD normy.length 0 ≠ 0 || bigRangeGe (window.take normy.length) normy) = true ↔
      Radix.value normy ≤ Radix.value window := by
  obtain ⟨lo, top, rfl⟩ := (List.eq_nil_or_concat' window).resolve_left (by
    rintro rfl
    simp at hlen)
  have hlo : lo.length = normy.length := by simpa using hlen
  have htop : (lo ++ [top]).getD normy.length 0 = top := by simp [← hlo]
  have htake : (lo ++ [top]).take normy.length = lo := by simp [← hlo]
  have hge := bigRangeGe_iff lo normy hlo
  rw [htop, htake, Radix.value_concat]
  simp only [ne_eq, Bool.or_eq_true, decide_eq_true_eq, hge]
  have hlt := Radix.value_lt normy
  rw [← hlo] at hlt
  constructor
  · rintro (hne | hle)
    · have hpos : 1 ≤ top.toNat := by
        rcases Nat.eq_zero_or_pos top.toNat with hz | hz
        · exact absurd (BitVec.eq_of_toNat_eq (by simpa using hz)) hne
        · exact hz
      have hmul := Nat.mul_le_mul_left ((2 ^ 32) ^ lo.length) hpos
      omega
    · omega
  · intro hle
    by_cases hzero : top = 0
    · rw [hzero] at hle
      exact .inr (by simpa using hle)
    · exact .inl hzero

/-- Each round moves one divisor from the window into the digit. -/
theorem correctDigit_spec (normy : List ILUInt32) (fuel : Nat) (divtemp : ILUInt32)
    (window : List ILUInt32) (hlen : window.length = normy.length + 1)
    (hfuel : Radix.value window < fuel * Radix.value normy)
    (hdigit : divtemp.toNat * Radix.value normy + Radix.value window <
      2 ^ 32 * Radix.value normy) :
    (correctDigit normy fuel divtemp window).2.length = normy.length + 1 ∧
      Radix.value (correctDigit normy fuel divtemp window).2 < Radix.value normy ∧
      (correctDigit normy fuel divtemp window).1.toNat * Radix.value normy +
          Radix.value (correctDigit normy fuel divtemp window).2 =
        divtemp.toNat * Radix.value normy + Radix.value window := by
  induction fuel generalizing divtemp window with
  | zero => omega
  | succ fuel ih =>
    have hcond := correction_condition_iff normy window hlen
    unfold correctDigit
    by_cases hle : Radix.value normy ≤ Radix.value window
    · rw [if_pos (hcond.mpr hle)]
      have hsub := value_subWindow_of_le normy window hlen hle
      have hnext : (divtemp + 1).toNat = divtemp.toNat + 1 := by
        have hlt : divtemp.toNat + 1 < 2 ^ 32 := by
          refine Nat.lt_of_mul_lt_mul_right (a := Radix.value normy) ?_
          rw [Nat.succ_mul]
          omega
        bv_omega
      have hmul : (divtemp.toNat + 1) * Radix.value normy =
          divtemp.toNat * Radix.value normy + Radix.value normy := Nat.succ_mul _ _
      rw [Nat.succ_mul] at hfuel
      obtain ⟨hl, hlt, hvalue⟩ := ih (divtemp + 1) (subWindow normy window false)
        (by rw [length_subWindow, hlen]) (by omega) (by rw [hnext]; omega)
      refine ⟨hl, hlt, ?_⟩
      rw [hvalue, hnext, hsub]
      omega
    · rw [if_neg (fun h => hle (hcond.mp h))]
      exact ⟨hlen, Nat.lt_of_not_le hle, rfl⟩

/-- The divisor is below the weight of its top word plus one, so dividing by that
never overshoots; neither does cutting the quotient to one word. -/
theorem estimateDigit_le (lo : List ILUInt32) (topy : ILUInt32) (lox : List ILUInt32)
    (next high : ILUInt32) (hlen : lox.length = lo.length) :
    (estimateDigit topy high next).toNat * Radix.value (lo ++ [topy]) ≤
      Radix.value (lox ++ [next, high]) := by
  have hlo := Radix.value_lt lo
  have hest : (estimateDigit topy high next).toNat * (topy.toNat + 1) ≤
      high.toNat * 2 ^ 32 + next.toNat := by
    unfold estimateDigit maxUInt32
    split_ifs with hmax
    · rw [hmax]
      exact Nat.le_add_right _ _
    · have hnext : (topy + 1).toNat = topy.toNat + 1 := by bv_omega
      have hhigh : high.toNat < 2 ^ 32 := high.isLt
      have htemp := toNat_shiftIn (high.setWidth 64) next
      rw [toNat_word64, Nat.mod_eq_of_lt hhigh] at htemp
      rw [toNat_low, BitVec.toNat_udiv, toNat_word64, hnext, htemp]
      calc _ ≤ (high.toNat * 2 ^ 32 + next.toNat) / (topy.toNat + 1) * (topy.toNat + 1) :=
            Nat.mul_le_mul_right _ (Nat.mod_le _ _)
        _ ≤ _ := Nat.div_mul_le_self _ _
  have hwindow : Radix.value (lox ++ [next, high]) =
      Radix.value lox + (2 ^ 32) ^ lo.length * (high.toNat * 2 ^ 32 + next.toNat) := by
    rw [Radix.value_append, hlen]
    simp only [Radix.value_cons, Radix.value_nil]
    ring
  rw [Radix.value_concat, hwindow]
  calc _ ≤ (estimateDigit topy high next).toNat * ((2 ^ 32) ^ lo.length * (topy.toNat + 1)) := by
        refine Nat.mul_le_mul_left _ ?_
        rw [Nat.mul_succ]
        omega
    _ = (2 ^ 32) ^ lo.length * ((estimateDigit topy high next).toNat * (topy.toNat + 1)) := by ring
    _ ≤ (2 ^ 32) ^ lo.length * (high.toNat * 2 ^ 32 + next.toNat) := Nat.mul_le_mul_left _ hest
    _ ≤ _ := Nat.le_add_left _ _

theorem divDigit_spec (normy window : List ILUInt32) (hne : normy ≠ [])
    (hlen : window.length = normy.length + 1)
    (hlt : Radix.value window < 2 ^ 32 * Radix.value normy) :
    (divDigit normy window).2.length = normy.length + 1 ∧
      Radix.value (divDigit normy window).2 < Radix.value normy ∧
      (divDigit normy window).1.toNat * Radix.value normy + Radix.value (divDigit normy window).2 =
        Radix.value window := by
  obtain ⟨lo, topy, rfl⟩ := (List.eq_nil_or_concat' normy).resolve_left hne
  obtain ⟨lox', high, rfl⟩ := (List.eq_nil_or_concat' window).resolve_left (by
    rintro rfl
    simp at hlen)
  obtain ⟨lox, next, rfl⟩ := (List.eq_nil_or_concat' lox').resolve_left (by
    rintro rfl
    simp at hlen)
  have hlox : lox.length = lo.length := by simpa using hlen
  have hest := estimateDigit_le lo topy lox next high hlox
  unfold divDigit
  have htop : (lo ++ [topy]).getLastD 0 = topy := by simp
  have hhigh : (lox ++ [next] ++ [high]).getD (lo ++ [topy]).length 0 = high := by simp [← hlox]
  have hnext : (lox ++ [next] ++ [high]).getD ((lo ++ [topy]).length - 1) 0 = next := by
    simp [← hlox]
  rw [htop, hhigh, hnext]
  have hsplit : lox ++ [next] ++ [high] = lox ++ [next, high] := by simp
  rw [hsplit] at hlen hlt ⊢
  have hmul := value_mulSubWords_of_le (estimateDigit topy high next) _ _ hlen hest
  obtain ⟨hl, hrem, hvalue⟩ := correctDigit_spec (lo ++ [topy]) (2 ^ 32)
    (estimateDigit topy high next)
    (mulSubWords (estimateDigit topy high next) (lo ++ [topy]) (lox ++ [next, high]) 0 false)
    (by rw [length_mulSubWords, hlen]) (by omega) (by omega)
  exact ⟨hl, hrem, hvalue.trans (by omega)⟩

/-! ### The loop over the digits -/

theorem value_dropLast {ws : List ILUInt32} {size : Nat} (hlen : ws.length = size + 1)
    (hlt : Radix.value ws < (2 ^ 32) ^ size) :
    ws.dropLast.length = size ∧ Radix.value ws.dropLast = Radix.value ws := by
  obtain ⟨lo, top, rfl⟩ := (List.eq_nil_or_concat' ws).resolve_left (by
    rintro rfl
    simp at hlen)
  have hlo : lo.length = size := by simpa using hlen
  rw [Radix.value_concat, hlo] at hlt
  rw [List.dropLast_concat, Radix.value_concat, hlo]
  have htop : top.toNat = 0 := by
    rcases Nat.eq_zero_or_pos top.toNat with hz | hpos
    · exact hz
    · have hmul := Nat.mul_le_mul_left ((2 ^ 32) ^ size) (Nat.succ_le_of_lt hpos)
      omega
  rw [htop]
  exact ⟨rfl, rfl⟩

theorem divDigits_spec (normy lower window : List ILUInt32) (hne : normy ≠ [])
    (hlen : window.length = normy.length + 1)
    (hlt : Radix.value window < 2 ^ 32 * Radix.value normy) :
    (divDigits normy lower window).1.length = lower.length + 1 ∧
      Radix.value (divDigits normy lower window).2 < Radix.value normy ∧
      Radix.value (divDigits normy lower window).1 * Radix.value normy +
          Radix.value (divDigits normy lower window).2 =
        Radix.value lower.reverse + (2 ^ 32) ^ lower.length * Radix.value window := by
  induction lower generalizing window with
  | nil =>
    obtain ⟨hl, hrem, hvalue⟩ := divDigit_spec normy window hne hlen hlt
    obtain ⟨-, hdrop⟩ := value_dropLast hl (hrem.trans (Radix.value_lt normy))
    simp only [divDigits]
    rw [hdrop]
    refine ⟨rfl, hrem, ?_⟩
    simpa using hvalue
  | cons x lower ih =>
    obtain ⟨hl, hrem, hvalue⟩ := divDigit_spec normy window hne hlen hlt
    obtain ⟨hdropLen, hdrop⟩ := value_dropLast hl (hrem.trans (Radix.value_lt normy))
    have hx : x.toNat < 2 ^ 32 := x.isLt
    have hnext : Radix.value (x :: (divDigit normy window).2.dropLast) =
        x.toNat + 2 ^ 32 * Radix.value (divDigit normy window).2 := by
      rw [Radix.value_cons, hdrop]
    obtain ⟨hquotLen, hlast, hquot⟩ := ih (x :: (divDigit normy window).2.dropLast)
      (by rw [List.length_cons, hdropLen]) (by rw [hnext]; omega)
    simp only [divDigits]
    refine ⟨by simp [hquotLen], hlast, ?_⟩
    rw [hnext] at hquot
    rw [Radix.value_concat, hquotLen, List.reverse_cons, Radix.value_concat, List.length_reverse,
      List.length_cons, pow_succ (2 ^ 32 : Nat) lower.length, ← hvalue]
    generalize (2 ^ 32) ^ lower.length = weight at hquot ⊢
    generalize divDigits normy lower (x :: (divDigit normy window).2.dropLast) = rest at hquot ⊢
    calc _ = Radix.value rest.1 * Radix.value normy + Radix.value rest.2 +
            weight * 2 ^ 32 * ((divDigit normy window).1.toNat * Radix.value normy) := by ring
      _ = _ := by
          rw [hquot]
          ring

/-! ### The whole division -/

/-- Normalizing the divisor carries nothing out and sets its high bit. -/
theorem value_shiftedDivisor (lo : List ILUInt32) (top : ILUInt32) (shift : Nat) (hshift : shift ≤ 31)
    (hlow : 2 ^ 31 ≤ top.toNat * 2 ^ shift) (hhigh : top.toNat * 2 ^ shift < 2 ^ 32) :
    Radix.value (shiftWords shift (lo ++ [top]) 0).1 = Radix.value (lo ++ [top]) * 2 ^ shift ∧
      2 ^ 31 * (2 ^ 32) ^ lo.length ≤ Radix.value (lo ++ [top]) * 2 ^ shift := by
  have hpow := Nat.two_pow_pos shift
  have hzero : (0 : ILUInt64).toNat = 0 := rfl
  obtain ⟨hlen, -, hvalue⟩ := shiftWords_spec shift hshift (lo ++ [top]) 0 (by rw [hzero]; exact hpow)
  rw [hzero, Nat.add_zero, List.length_append, List.length_singleton] at hvalue
  have hsplit : (2 : Nat) ^ 32 = 2 ^ (32 - shift) * 2 ^ shift := by
    rw [← Nat.pow_add]
    congr 1
    omega
  have htop : top.toNat + 1 ≤ 2 ^ (32 - shift) := by
    rw [hsplit] at hhigh
    exact Nat.lt_of_mul_lt_mul_right hhigh
  have hlo := Radix.value_lt lo
  have hlt : Radix.value (lo ++ [top]) * 2 ^ shift < (2 ^ 32) ^ (lo.length + 1) := by
    rw [Radix.value_concat, pow_succ (2 ^ 32 : Nat) lo.length]
    calc _ < (2 ^ 32) ^ lo.length * (top.toNat + 1) * 2 ^ shift := by
          refine Nat.mul_lt_mul_of_pos_right ?_ hpow
          rw [Nat.mul_succ]
          omega
      _ ≤ (2 ^ 32) ^ lo.length * 2 ^ (32 - shift) * 2 ^ shift :=
          Nat.mul_le_mul_right _ (Nat.mul_le_mul_left _ htop)
      _ = _ := by rw [Nat.mul_assoc, ← hsplit]
  constructor
  · have hout : (shiftWords shift (lo ++ [top]) 0).2.toNat = 0 := by
      rcases Nat.eq_zero_or_pos (shiftWords shift (lo ++ [top]) 0).2.toNat with hz | hpos
      · exact hz
      · have hmul := Nat.mul_le_mul_left ((2 ^ 32) ^ (lo.length + 1)) (Nat.succ_le_of_lt hpos)
        omega
    rw [hout, Nat.mul_zero, Nat.add_zero] at hvalue
    exact hvalue
  · rw [Radix.value_concat]
    calc _ ≤ top.toNat * 2 ^ shift * (2 ^ 32) ^ lo.length := Nat.mul_le_mul_right _ hlow
      _ = (2 ^ 32) ^ lo.length * top.toNat * 2 ^ shift := by ring
      _ ≤ _ := Nat.mul_le_mul_right _ (Nat.le_add_left _ _)

/-- The top words of the shifted dividend, as many as the divisor has and one
more, hold less than the divisor times the word base. -/
theorem value_firstWindow_lt (shift : Nat) (hshift : shift ≤ 31) (xs : List ILUInt32) (j n V : Nat)
    (hlen : xs.length = j + (n + 1)) (hV : 2 ^ 31 * (2 ^ 32) ^ n ≤ V) :
    Radix.value (((shiftWords shift xs 0).1 ++ [(shiftWords shift xs 0).2]).drop j) <
      2 ^ 32 * V := by
  have hzero : (0 : ILUInt64).toNat = 0 := rfl
  obtain ⟨hl, hout, -⟩ := shiftWords_spec shift hshift xs 0
    (by rw [hzero]; exact Nat.two_pow_pos shift)
  have hpow : 2 ^ shift ≤ 2 ^ 31 := Nat.pow_le_pow_right (by decide) hshift
  have hdrop : ((shiftWords shift xs 0).1.drop j).length = n + 1 := by
    rw [List.length_drop, hl, hlen]
    omega
  have hlo := Radix.value_lt ((shiftWords shift xs 0).1.drop j)
  rw [hdrop] at hlo
  rw [List.drop_append_of_le_length (by omega), Radix.value_concat, hdrop]
  have htop : (2 ^ 32) ^ (n + 1) * ((shiftWords shift xs 0).2.toNat + 1) ≤ 2 ^ 32 * V := by
    calc _ ≤ (2 ^ 32) ^ (n + 1) * 2 ^ 31 := Nat.mul_le_mul_left _ (by omega)
      _ = 2 ^ 32 * (2 ^ 31 * (2 ^ 32) ^ n) := by
          rw [pow_succ (2 ^ 32 : Nat) n]
          ring
      _ ≤ _ := Nat.mul_le_mul_left _ hV
  rw [Nat.mul_succ] at htop
  omega

/-- Schoolbook division of the words, undoing the shift at the end. -/
theorem divDigits_shifted (xs lo : List ILUInt32) (top : ILUInt32) (shift : Nat)
    (hshift : shift ≤ 31) (hlow : 2 ^ 31 ≤ top.toNat * 2 ^ shift)
    (hhigh : top.toNat * 2 ^ shift < 2 ^ 32) (hle : lo.length + 1 ≤ xs.length) :
    let normx := (shiftWords shift xs 0).1 ++ [(shiftWords shift xs 0).2]
    let digits := divDigits (shiftWords shift (lo ++ [top]) 0).1
      (normx.take (xs.length - (lo.length + 1))).reverse (normx.drop (xs.length - (lo.length + 1)))
    let remainder := (unshiftWords shift digits.2.reverse 0).reverse
    Radix.value digits.1 * Radix.value (lo ++ [top]) + Radix.value remainder = Radix.value xs ∧
      Radix.value remainder < Radix.value (lo ++ [top]) := by
  intro normx digits remainder
  have hpow := Nat.two_pow_pos shift
  have hzero : (0 : ILUInt64).toNat = 0 := rfl
  obtain ⟨hxlen, -, hxvalue⟩ := shiftWords_spec shift hshift xs 0 (by rw [hzero]; exact hpow)
  obtain ⟨hylen, -, -⟩ := shiftWords_spec shift hshift (lo ++ [top]) 0 (by rw [hzero]; exact hpow)
  obtain ⟨hyvalue, hybig⟩ := value_shiftedDivisor lo top shift hshift hlow hhigh
  rw [List.length_append, List.length_singleton] at hylen
  set j := xs.length - (lo.length + 1) with hj
  have hnormx : normx.length = xs.length + 1 := by
    rw [List.length_append, hxlen, List.length_singleton]
  have hwindow : Radix.value (normx.drop j) < 2 ^ 32 * (Radix.value (lo ++ [top]) * 2 ^ shift) :=
    value_firstWindow_lt shift hshift xs j lo.length _ (by omega) hybig
  obtain ⟨-, hrem, hvalue⟩ := divDigits_spec (shiftWords shift (lo ++ [top]) 0).1
    (normx.take j).reverse (normx.drop j) (by
      intro hnil
      rw [hnil] at hylen
      exact absurd hylen (Nat.succ_ne_zero _).symm)
    (by rw [List.length_drop, hnormx, hylen]; omega) (by rw [hyvalue]; exact hwindow)
  have hlower : (normx.take j).reverse.length = (normx.take j).length := List.length_reverse
  rw [List.reverse_reverse, hlower, ← Radix.value_append, List.take_append_drop,
    Radix.value_concat, hxlen, hxvalue, hzero, Nat.add_zero] at hvalue
  rw [hyvalue] at hvalue hrem
  have hunshift : Radix.value remainder = Radix.value digits.2 / 2 ^ shift := by
    have hspec := (unshiftWords_spec shift hshift digits.2.reverse 0).2
    rw [hzero, Nat.zero_mod, Nat.zero_mul, Nat.zero_add, List.reverse_reverse] at hspec
    exact hspec
  have hfactor : Radix.value digits.2 =
      2 ^ shift * (Radix.value xs - Radix.value digits.1 * Radix.value (lo ++ [top])) := by
    rw [Nat.mul_sub, Nat.mul_comm _ (Radix.value xs), ← hvalue]
    refine (Nat.sub_eq_of_eq_add ?_).symm
    ring
  rw [hfactor, Nat.mul_div_cancel_left _ hpow] at hunshift
  rw [hfactor, Nat.mul_comm] at hrem
  have hlt := Nat.lt_of_mul_lt_mul_right hrem
  refine ⟨?_, by rw [hunshift]; exact hlt⟩
  have hquot : Radix.value digits.1 * Radix.value (lo ++ [top]) ≤ Radix.value xs := by
    refine Nat.le_of_mul_le_mul_right ?_ hpow
    rw [← hvalue, Nat.mul_assoc]
    exact Nat.le_add_right _ _
  rw [hunshift]
  exact Nat.add_sub_cancel' hquot

theorem divLong_spec (numx numy : ILBigNum) (hy : Radix.Trimmed numy.words) (hne : numy.words ≠ [])
    (hlen : numy.words.length ≤ numx.words.length) :
    (divLong numx numy).1.Normalized ∧ (divLong numx numy).2.Normalized ∧
      (divLong numx numy).1.neg = false ∧ (divLong numx numy).2.neg = false ∧
      Radix.value numx.words = Radix.value (divLong numx numy).1.words * Radix.value numy.words +
        Radix.value (divLong numx numy).2.words ∧
      Radix.value (divLong numx numy).2.words < Radix.value numy.words := by
  obtain ⟨yneg, ywords⟩ := numy
  obtain ⟨lo, top, rfl⟩ := (List.eq_nil_or_concat' ywords).resolve_left hne
  have htop : 0 < top.toNat := by
    rcases Nat.eq_zero_or_pos top.toNat with hz | hpos
    · exact absurd (BitVec.eq_of_toNat_eq (by simpa using hz)) ((Radix.trimmed_concat lo top).mp hy)
    · exact hpos
  have hlast : (lo ++ [top]).getLastD 0 = top := by simp
  obtain ⟨hshift, hlow, hhigh⟩ := topShift_spec top 32 0 rfl htop (by
    have hlt : top.toNat < 2 ^ 32 := top.isLt
    omega)
  have hdiv := divDigits_shifted numx.words lo top (topShift top 32 0) hshift hlow hhigh
    (by simpa using hlen)
  simp only [divLong, hlast, ILBigNum.size, List.length_append, List.length_singleton]
  refine ⟨normalized_normalizeBigNum _, normalized_normalizeBigNum _, by simp [normalizeBigNum],
    by simp [normalizeBigNum], ?_, ?_⟩
  · rw [value_normalizeBigNum, value_normalizeBigNum]
    exact hdiv.1.symm
  · rw [value_normalizeBigNum]
    exact hdiv.2

theorem divRem_long (numx numy : ILBigNum) (hlen : 2 ≤ numy.words.length) :
    divRem numx numy =
      if numx.size = 0 then some (ilBigNumFromInt 0, ilBigNumFromInt 0)
      else if ilBigNumCompare numx numy < 0 then some (ilBigNumFromInt 0, ilBigNumCopy numx)
      else some (divLong numx numy) := by
  obtain ⟨yneg, ywords⟩ := numy
  match ywords, hlen with
  | _ :: _ :: _, _ => rfl

/-- `divRem` on magnitudes. -/
theorem divRem_value (numx numy : ILBigNum) (hx : numx.Normalized) (hy : numy.Normalized)
    (hxneg : numx.neg = false) (hyneg : numy.neg = false) (hne : numy.words ≠ []) :
    ∃ q r, divRem numx numy = some (q, r) ∧ q.Normalized ∧ r.Normalized ∧
      q.neg = false ∧ r.neg = false ∧
      Radix.value numx.words = Radix.value q.words * Radix.value numy.words + Radix.value r.words ∧
      Radix.value r.words < Radix.value numy.words := by
  have hpos : 0 < Radix.value numy.words :=
    Nat.pos_of_ne_zero fun hz => hne ((Radix.value_eq_zero_iff hy.1).mp hz)
  have hzero : (0 : ILUInt64).toNat = 0 := rfl
  by_cases hsize : numx.size = 0
  · have hnil : numx.words = [] := List.eq_nil_of_length_eq_zero hsize
    refine ⟨ilBigNumFromInt 0, ilBigNumFromInt 0, ?_, normalized_fromInt 0, normalized_fromInt 0,
      rfl, rfl, ?_, ?_⟩
    · unfold divRem
      split
      · contradiction
      all_goals rw [if_pos hsize]
    · rw [hnil, value_fromInt]
      simp
    · rw [value_fromInt]
      exact hpos
  rcases Nat.lt_or_ge numy.words.length 2 with hshort | hlong
  · obtain ⟨divisor, hwords⟩ : ∃ divisor, numy.words = [divisor] :=
      List.length_eq_one_iff.mp (by
        have hlen := List.length_pos_iff.mpr hne
        omega)
    have hvalue : Radix.value numy.words = divisor.toNat := by simp [hwords]
    rw [hvalue] at hpos ⊢
    obtain ⟨hlt, -, hdiv⟩ := divSingle_spec divisor numx.words.reverse 0 (by rw [hzero]; exact hpos)
    rw [hzero, Nat.zero_mul, Nat.zero_add, List.reverse_reverse] at hdiv
    have hd : divisor.toNat < 2 ^ 32 := divisor.isLt
    refine ⟨normalizeBigNum ⟨false, (divSingle divisor numx.words.reverse 0).1.reverse⟩,
      ilBigNumFromInt ((divSingle divisor numx.words.reverse 0).2.setWidth 32), ?_,
      normalized_normalizeBigNum _, normalized_fromInt _, by simp [normalizeBigNum],
      neg_fromInt _, ?_, ?_⟩
    · simp only [divRem, hwords]
      rw [if_neg hsize]
    · rw [value_normalizeBigNum, value_fromInt, toNat_low, Nat.mod_eq_of_lt (by omega)]
      exact hdiv.symm
    · rw [value_fromInt, toNat_low, Nat.mod_eq_of_lt (by omega)]
      exact hlt
  · have hcompare := ilBigNumCompareAbs_nonneg_iff numx numy hx.1 hy.1
    have hsame : ilBigNumCompare numx numy = ilBigNumCompareAbs numx numy := by
      simp [ilBigNumCompare, hxneg, hyneg]
    rw [divRem_long numx numy hlong, if_neg hsize, hsame]
    by_cases hlt : ilBigNumCompareAbs numx numy < 0
    · rw [if_pos hlt, ilBigNumCopy, if_neg hsize]
      refine ⟨_, _, rfl, normalized_fromInt 0, hx, rfl, hxneg, ?_, by omega⟩
      rw [value_fromInt]
      simp
    · rw [if_neg hlt]
      exact ⟨_, _, rfl, divLong_spec numx numy hy.1 hne
        (length_le_of_value_le hy.1 (hcompare.mp (Int.le_of_not_gt hlt)))⟩

theorem words_ne_nil_of_pos {num : ILBigNum} (h : 0 < num.toInt) : num.words ≠ [] := by
  intro hnil
  simp [ILBigNum.toInt, hnil] at h

/-- Division of non-negative numbers is Euclidean division. -/
theorem divRem_spec (numx numy : ILBigNum) (hx : numx.Normalized) (hy : numy.Normalized)
    (hxnonneg : 0 ≤ numx.toInt) (hypos : 0 < numy.toInt) :
    ∃ q r, divRem numx numy = some (q, r) ∧ q.Normalized ∧ r.Normalized ∧
      numx.toInt = q.toInt * numy.toInt + r.toInt ∧ 0 ≤ r.toInt ∧ r.toInt < numy.toInt := by
  have hxneg := neg_eq_false_of_nonneg hx hxnonneg
  have hyneg := neg_eq_false_of_pos hypos
  obtain ⟨q, r, hdiv, hq, hr, hqneg, hrneg, hvalue, hlt⟩ :=
    divRem_value numx numy hx hy hxneg hyneg (words_ne_nil_of_pos hypos)
  refine ⟨q, r, hdiv, hq, hr, ?_⟩
  rw [toInt_of_not_neg hxneg, toInt_of_not_neg hyneg, toInt_of_not_neg hqneg,
    toInt_of_not_neg hrneg]
  exact ⟨by exact_mod_cast hvalue, by omega, by omega⟩

/-- `2^64 - 1` by `2^63`. -/
theorem divRem_spec_twoWords :
    ∃ q r, divRem ⟨false, [0xFFFFFFFF, 0xFFFFFFFF]⟩ ⟨false, [0, 0x80000000]⟩ = some (q, r) ∧
      q.Normalized ∧ r.Normalized ∧
      (⟨false, [0xFFFFFFFF, 0xFFFFFFFF]⟩ : ILBigNum).toInt =
        q.toInt * (⟨false, [0, 0x80000000]⟩ : ILBigNum).toInt + r.toInt ∧
      0 ≤ r.toInt ∧ r.toInt < (⟨false, [0, 0x80000000]⟩ : ILBigNum).toInt :=
  divRem_spec _ _ (by decide) (by decide) (by decide) (by decide)

end Pnet.Support
