import Mathlib.Data.BitVec

/-! Functions on words that only move bits: each bit of the result is one bit of the argument, or
always clear. What such a function does is its wiring, and wirings are compared by computation. -/
namespace Pnet.Lib.BitWires

variable {n m k : Nat}

/-- Each bit of the result is the bit that `wire` leads to, and clear where `wire` leads out of
the argument. -/
def Wired (f : BitVec n → BitVec m) (wire : Nat → Nat) : Prop :=
  ∀ x i, i < m → (f x).getLsbD i = x.getLsbD (wire i)

/-- The bits that a table lists, the first at the left, where a word's first bit is its leftmost
and has number one. -/
def select (table : List Nat) (x : BitVec n) : BitVec m :=
  (BitVec.ofBoolListBE ((List.range m).map fun i => x.getMsbD (table.getD i 0 - 1))).setWidth m

/-! ### The bits of a selection -/

theorem getLsbD_select (table : List Nat) (x : BitVec n) {i : Nat} (hi : i < m) :
    (select table x : BitVec m).getLsbD i = x.getMsbD (table.getD (m - 1 - i) 0 - 1) := by
  simp [select, hi]

theorem select_or (table : List Nat) (x y : BitVec n) :
    (select table (x ||| y) : BitVec m) = select table x ||| select table y := by
  apply BitVec.eq_of_getLsbD_eq
  intro i hi
  rw [BitVec.getLsbD_or, getLsbD_select _ _ hi, getLsbD_select _ _ hi, getLsbD_select _ _ hi,
    BitVec.getMsbD_or]

/-! ### Wirings -/

namespace Wired

variable {f : BitVec n → BitVec m} {g : BitVec n → BitVec m} {σ τ : Nat → Nat}

/-- Functions with one wiring are equal. -/
theorem eq (hf : Wired f σ) (hg : Wired g τ) (h : ∀ i < m, σ i = τ i) (x : BitVec n) :
    f x = g x := by
  apply BitVec.eq_of_getLsbD_eq
  intro i hi
  rw [hf x i hi, hg x i hi, h i hi]

theorem id : Wired (fun x : BitVec n => x) fun i => i :=
  fun _ _ _ => rfl

theorem comp {g : BitVec m → BitVec k} (hg : Wired g τ) (hf : Wired f σ) :
    Wired (fun x => g (f x)) fun i => if τ i < m then σ (τ i) else n := by
  intro x i hi
  dsimp only
  rw [hg (f x) i hi]
  split
  case isTrue hlt => exact hf x (τ i) hlt
  case isFalse hge => rw [BitVec.getLsbD_of_ge _ _ (Nat.not_lt.mp hge),
    BitVec.getLsbD_of_ge _ _ (Nat.le_refl n)]

theorem select (table : List Nat) :
    Wired (BitWires.select table : BitVec n → BitVec m) fun i =>
      if table.getD (m - 1 - i) 0 - 1 < n then n - 1 - (table.getD (m - 1 - i) 0 - 1) else n := by
  intro x i hi
  dsimp only
  rw [getLsbD_select table x hi, BitVec.getMsbD_eq_getLsbD]
  split
  case isTrue hlt => rw [decide_eq_true hlt, Bool.true_and]
  case isFalse hge =>
    rw [decide_eq_false hge, Bool.false_and, BitVec.getLsbD_of_ge _ _ (Nat.le_refl n)]

theorem extract (start : Nat) : Wired (BitVec.extractLsb' start m (n := n)) fun i => start + i := by
  intro x i hi
  rw [BitVec.getLsbD_extractLsb', decide_eq_true hi, Bool.true_and]

theorem setWidth : Wired (BitVec.setWidth m (w := n)) fun i => i := by
  intro x i hi
  rw [BitVec.getLsbD_setWidth, decide_eq_true hi, Bool.true_and]

theorem and (mask : BitVec n) :
    Wired (fun x => x &&& mask) fun i => if mask.getLsbD i then i else n := by
  intro x i _
  dsimp only
  rw [BitVec.getLsbD_and]
  split
  case isTrue hmask => rw [hmask, Bool.and_true]
  case isFalse hmask =>
    rw [Bool.eq_false_of_not_eq_true hmask, Bool.and_false,
      BitVec.getLsbD_of_ge _ _ (Nat.le_refl n)]

theorem shiftLeft (s : Nat) : Wired (fun x : BitVec n => x <<< s) fun i =>
    if i < s then n else i - s := by
  intro x i hi
  dsimp only
  rw [BitVec.getLsbD_shiftLeft, decide_eq_true hi]
  split
  case isTrue hlt => simp [hlt]
  case isFalse hge => simp [hge]

theorem ushiftRight (s : Nat) : Wired (fun x : BitVec n => x >>> s) fun i => s + i :=
  fun x i _ => BitVec.getLsbD_ushiftRight x s i

/-- Two words that share no bit. -/
theorem or (hf : Wired f σ) (hg : Wired g τ) (h : ∀ i < m, n ≤ σ i ∨ n ≤ τ i) :
    Wired (fun x => f x ||| g x) fun i => if σ i < n then σ i else τ i := by
  intro x i hi
  dsimp only
  rw [BitVec.getLsbD_or, hf x i hi, hg x i hi]
  split
  case isTrue hlt =>
    have hout : n ≤ τ i := (h i hi).resolve_left (Nat.not_le.mpr hlt)
    rw [BitVec.getLsbD_of_ge _ _ hout, Bool.or_false]
  case isFalse hge => rw [BitVec.getLsbD_of_ge _ _ (Nat.not_lt.mp hge), Bool.false_or]

theorem append {g : BitVec n → BitVec k} (hf : Wired f σ) (hg : Wired g τ) :
    Wired (fun x => f x ++ g x) fun i => if i < k then τ i else σ (i - k) := by
  intro x i hi
  dsimp only
  rw [BitVec.getLsbD_append]
  split
  case isTrue hlt => exact hg x i hlt
  case isFalse hge => exact hf x (i - k) (by omega)

end Wired

/-! ### Words that are put together bit by bit -/

variable {α : Type}

/-- The word whose bit `top - posn` is set for each entry at `posn` that satisfies `p`. -/
def gather {w : Nat} (p : α → Prop) [DecidablePred p] (top : Nat) (entries : List α)
    (first : Nat) (word : BitVec w) : BitVec w :=
  (entries.zipIdx first).foldl
    (fun word (entry, posn) => if p entry then word ||| BitVec.twoPow w (top - posn) else word) word

theorem getLsbD_gather {w : Nat} (p : α → Prop) [DecidablePred p] {top : Nat} (htop : top < w)
    (entries : List α) {first : Nat} (hfirst : first + entries.length ≤ top + 1)
    (word : BitVec w) {i : Nat} :
    (gather p top entries first word).getLsbD i =
      (word.getLsbD i || (decide (i + first ≤ top) &&
        (entries[top - i - first]?).any fun entry => decide (p entry))) := by
  induction entries generalizing first word with
  | nil => simp [gather]
  | cons entry entries ih =>
    rw [List.length_cons] at hfirst
    have hnext := @ih (first + 1) (by omega)
      (if p entry then word ||| BitVec.twoPow w (top - first) else word)
    have hbit : (if p entry then word ||| BitVec.twoPow w (top - first) else word).getLsbD i =
        (word.getLsbD i || (decide (top - first = i) && decide (p entry))) := by
      by_cases hp : p entry
      · have hin : top - first < w := by omega
        rw [if_pos hp, BitVec.getLsbD_or, BitVec.getLsbD_twoPow, decide_eq_true hin,
          decide_eq_true hp, Bool.true_and, Bool.and_true]
      · rw [if_neg hp, decide_eq_false hp, Bool.and_false, Bool.or_false]
    rw [gather, List.zipIdx_cons, List.foldl_cons]
    refine hnext.trans ?_
    rw [hbit, Bool.or_assoc]
    congr 1
    rcases Nat.lt_trichotomy (i + first) top with hlt | heq | hgt
    · have hindex : top - i - first = top - i - (first + 1) + 1 := by omega
      have hne : ¬top - first = i := by omega
      have hle : i + (first + 1) ≤ top := by omega
      rw [hindex, List.getElem?_cons_succ, decide_eq_false hne, decide_eq_true hle,
        decide_eq_true (Nat.le_of_lt hlt), Bool.false_and, Bool.false_or]
    · have hindex : top - i - first = 0 := by omega
      have hle : ¬i + (first + 1) ≤ top := by omega
      have hposn : top - first = i := by omega
      rw [hindex, List.getElem?_cons_zero, decide_eq_true hposn, decide_eq_false hle,
        decide_eq_true (Nat.le_of_eq heq), Bool.false_and, Bool.or_false]
      rfl
    · have hne : ¬top - first = i := by omega
      have hle : ¬i + (first + 1) ≤ top := by omega
      have hle' : ¬i + first ≤ top := by omega
      rw [decide_eq_false hne, decide_eq_false hle, decide_eq_false hle']
      rfl

/-- A word gathered from the bits of another is a selection. -/
theorem gather_eq_select {w : Nat} (top : Nat) (htop : top < w) (p : Nat → Prop) [DecidablePred p]
    (x : BitVec n) (table : List Nat) (hlength : table.length = top + 1)
    (hp : ∀ entry ∈ table, p entry ↔ x.getMsbD (entry - 1) = true) :
    gather p top table 0 (0 : BitVec w) = (select table x : BitVec (top + 1)).setWidth w := by
  apply BitVec.eq_of_getLsbD_eq
  intro i hi
  have hzero : (0 : BitVec w).getLsbD i = false := BitVec.getLsbD_zero
  rw [getLsbD_gather p htop table (by omega), hzero, BitVec.getLsbD_setWidth, decide_eq_true hi,
    Bool.true_and, Bool.false_or, Nat.add_zero, Nat.sub_zero]
  by_cases hle : i ≤ top
  · have hin : top - i < table.length := by omega
    have hentry := hp table[top - i] (List.getElem_mem hin)
    have hbit : decide (p table[top - i]) = x.getMsbD (table[top - i] - 1) := by
      rw [Bool.eq_iff_iff, decide_eq_true_iff]
      exact hentry
    rw [getLsbD_select table x (Nat.lt_succ_of_le hle), decide_eq_true hle, Bool.true_and,
      List.getElem?_eq_getElem hin, Option.any_some, hbit, Nat.succ_sub_one,
      List.getD_eq_getElem?_getD, List.getElem?_eq_getElem hin, Option.getD_some]
  · rw [decide_eq_false hle, Bool.false_and,
      BitVec.getLsbD_of_ge _ _ (Nat.succ_le_of_lt (Nat.not_le.mp hle))]

end Pnet.Lib.BitWires
