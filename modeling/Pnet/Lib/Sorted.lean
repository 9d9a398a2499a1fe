import Mathlib.Algebra.Order.Group.Nat
import Pnet.Lib.Loop

/-! Sorting by exchanging each item with the later ones that should be in front of it. -/
namespace Pnet.Lib

variable {α κ : Type} [LinearOrder κ] (key : α → κ)

/-- A list in the order of the keys, which is one of several when keys are equal. -/
structure Sorts (before after : List α) : Prop where
  perm : after.Perm before
  sorted : after.Pairwise fun x y => key x ≤ key y

/-- The item that is left in the place of `x`, and what is behind it. -/
def sweep (x : α) : List α → α × List α
  | [] => (x, [])
  | y :: rest =>
    if key y < key x then
      let (least, rest) := sweep y rest
      (least, x :: rest)
    else
      let (least, rest) := sweep x rest
      (least, y :: rest)

@[simp] theorem length_sweep (x : α) (rest : List α) : (sweep key x rest).2.length = rest.length := by
  induction rest generalizing x with
  | nil => rfl
  | cons y rest ih =>
    rw [sweep]
    split_ifs <;> simp [ih]

def exchangeSort : List α → List α
  | [] => []
  | x :: rest => (sweep key x rest).1 :: exchangeSort (sweep key x rest).2
termination_by items => items.length
decreasing_by simp

variable {key}

theorem perm_sweep (x : α) (rest : List α) :
    ((sweep key x rest).1 :: (sweep key x rest).2).Perm (x :: rest) := by
  induction rest generalizing x with
  | nil => exact .rfl
  | cons y rest ih =>
    rw [sweep]
    split_ifs
    · exact (List.Perm.swap x _ _).trans ((ih y).cons x)
    · exact (List.Perm.swap y _ _).trans (((ih x).cons y).trans (.swap x y rest))

/-- No key is less than that of the item which is left. -/
theorem sweep_le (x : α) (rest : List α) :
    ∀ y ∈ (sweep key x rest).2, key (sweep key x rest).1 ≤ key y := by
  have hmain : ∀ y ∈ x :: rest, key (sweep key x rest).1 ≤ key y := by
    induction rest generalizing x with
    | nil => simp [sweep]
    | cons z rest ih =>
      rw [sweep]
      split_ifs with hlt
      · intro y hy
        rcases List.mem_cons.1 hy with rfl | hy
        · exact (ih z z List.mem_cons_self).trans hlt.le
        · exact ih z y hy
      · intro y hy
        rcases List.mem_cons.1 hy with rfl | hy
        · exact ih y y List.mem_cons_self
        · rcases List.mem_cons.1 hy with rfl | hy
          · exact (ih x x List.mem_cons_self).trans (not_lt.1 hlt)
          · exact ih x y (List.mem_cons_of_mem _ hy)
  intro y hy
  exact hmain y ((perm_sweep x rest).subset (List.mem_cons_of_mem _ hy))

theorem exchangeSort_sorts (items : List α) : Sorts key items (exchangeSort key items) := by
  induction items using exchangeSort.induct key with
  | case1 =>
    rw [exchangeSort]
    exact ⟨.rfl, .nil⟩
  | case2 x rest ih =>
    rw [exchangeSort]
    refine ⟨(ih.perm.cons _).trans (perm_sweep x rest), ih.sorted.cons fun y hy => ?_⟩
    exact sweep_le x rest y (ih.perm.subset hy)

end Pnet.Lib

/-! ### Searching

Searches of a sorted sequence for the run of the items that compare as equal: a binary search,
then one item after the other to both sides. The comparison of an item can fail. -/
namespace Pnet.Lib.SortedSearch

variable {ε : Type} (test : Nat → Except ε Ordering)

/-- An item from `left` on and before `stop` that compares as equal. -/
def search : Nat → Nat → Nat → Except ε (Option Nat)
  | 0, _, _ => .ok none
  | steps + 1, left, stop =>
    if left < stop then do
      let middle := (left + stop - 1) / 2
      match ← test middle with
      | .eq => .ok (some middle)
      | .lt => search steps (middle + 1) stop
      | .gt => search steps left middle
    else .ok none

/-- The first item that compares as equal, from one of them on to the left. -/
def first : Nat → Except ε Nat
  | 0 => .ok 0
  | left + 1 => do
    match ← test left with
    | .eq => first left
    | _ => .ok (left + 1)

/-- The last one; there are `more` items behind `right`. -/
def last : Nat → Nat → Except ε Nat
  | 0, right => .ok right
  | more + 1, right => do
    match ← test (right + 1) with
    | .eq => last more (right + 1)
    | _ => .ok right

/-- What the comparisons of a sorted sequence of `size` items say. -/
structure Sorted (test : Nat → Except ε Ordering) (size : Nat) (result : Nat → Ordering) :
    Prop where
  test_eq : ∀ i < size, test i = .ok (result i)
  lt : ∀ i j, i ≤ j → j < size → result j = .lt → result i = .lt
  gt : ∀ i j, i ≤ j → j < size → result i = .gt → result j = .gt

variable {test} {size : Nat} {result : Nat → Ordering}

namespace Sorted

variable (h : Sorted test size result)
include h

theorem eq_of_between {i j k : Nat} (hij : i ≤ j) (hjk : j ≤ k) (hk : k < size)
    (hi : result i = .eq) (heq : result k = .eq) : result j = .eq := by
  cases hj : result j with
  | eq => rfl
  | lt => exact absurd ((h.lt i j hij (hjk.trans_lt hk) hj).symm.trans hi) nofun
  | gt => exact absurd ((h.gt j k hjk hk hj).symm.trans heq) nofun

theorem search {steps left stop : Nat} (hsteps : stop - left ≤ steps) (hstop : stop ≤ size)
    (hbefore : ∀ i < left, result i ≠ .eq) (hbehind : ∀ i, stop ≤ i → i < size → result i ≠ .eq) :
    ∃ found, SortedSearch.search test steps left stop = .ok found ∧
      match found with
      | some middle => middle < size ∧ result middle = .eq
      | none => ∀ i < size, result i ≠ .eq := by
  induction steps generalizing left stop with
  | zero =>
    refine ⟨none, rfl, fun i hi => ?_⟩
    rcases lt_or_ge i left with hlt | hge
    · exact hbefore i hlt
    · exact hbehind i (by omega) hi
  | succ steps ih =>
    rw [SortedSearch.search]
    split_ifs with hlt
    · have hmiddle : left ≤ (left + stop - 1) / 2 ∧ (left + stop - 1) / 2 < stop := by omega
      simp only [h.test_eq _ (hmiddle.2.trans_le hstop), ok_bind]
      generalize (left + stop - 1) / 2 = middle at hmiddle
      cases hresult : result middle with
      | eq => exact ⟨some middle, rfl, hmiddle.2.trans_le hstop, hresult⟩
      | lt =>
        refine ih (by omega) hstop (fun i hi => ?_) hbehind
        rw [h.lt i middle (by omega) (hmiddle.2.trans_le hstop) hresult]
        nofun
      | gt =>
        refine ih (by omega) (by omega) hbefore fun i hi hsize => ?_
        rw [h.gt middle i hi hsize hresult]
        nofun
    · refine ⟨none, rfl, fun i hi => ?_⟩
      rcases lt_or_ge i left with hbelow | hge
      · exact hbefore i hbelow
      · exact hbehind i (by omega) hi

theorem first {middle : Nat} (hmiddle : middle < size) (heq : result middle = .eq) :
    ∃ left ≤ middle, SortedSearch.first test middle = .ok left ∧ result left = .eq ∧
      ∀ i < left, result i ≠ .eq := by
  induction middle with
  | zero => exact ⟨0, le_rfl, rfl, heq, nofun⟩
  | succ middle ih =>
    rw [SortedSearch.first, h.test_eq middle (by omega), ok_bind]
    have hstop (hne : result middle ≠ .eq) : ∀ i < middle + 1, result i ≠ .eq := by
      intro i hi hi'
      exact hne (h.eq_of_between (Nat.le_of_lt_succ hi) (Nat.le_succ middle) hmiddle hi' heq)
    cases hresult : result middle with
    | eq =>
      obtain ⟨left, hle, hspec⟩ := ih (by omega) hresult
      exact ⟨left, by omega, hspec⟩
    | lt | gt => exact ⟨middle + 1, le_rfl, rfl, heq, hstop (by rw [hresult]; nofun)⟩

theorem last {more right : Nat} (hmore : right + 1 + more = size) (heq : result right = .eq) :
    ∃ stop, right ≤ stop ∧ stop < size ∧ SortedSearch.last test more right = .ok stop ∧
      result stop = .eq ∧ ∀ i, stop < i → i < size → result i ≠ .eq := by
  induction more generalizing right with
  | zero => exact ⟨right, le_rfl, by omega, rfl, heq, fun i hi hsize => by omega⟩
  | succ more ih =>
    rw [SortedSearch.last, h.test_eq (right + 1) (by omega), ok_bind]
    have hstop (hne : result (right + 1) ≠ .eq) : ∀ i, right < i → i < size → result i ≠ .eq := by
      intro i hi hsize hi'
      exact hne (h.eq_of_between (Nat.le_succ right) hi hsize heq hi')
    cases hresult : result (right + 1) with
    | eq =>
      obtain ⟨stop, hle, hspec⟩ := ih (by omega) hresult
      exact ⟨stop, by omega, hspec⟩
    | lt | gt => exact ⟨right, le_rfl, by omega, rfl, heq, hstop (by rw [hresult]; nofun)⟩

end Sorted

/-- The items of a list that have a property, when these are those of an interval. -/
theorem filter_eq_slice {α : Type} {p : α → Bool} {xs : List α} {left stop : Nat}
    (hle : left ≤ stop) (hstop : stop ≤ xs.length)
    (h : ∀ i (hi : i < xs.length), p xs[i] = true ↔ left ≤ i ∧ i < stop) :
    xs.filter p = (xs.drop left).take (stop - left) := by
  have hsplit : xs = xs.take left ++ ((xs.drop left).take (stop - left) ++ xs.drop stop) := by
    conv_lhs => rw [← List.take_append_drop left xs,
      ← List.take_append_drop (stop - left) (xs.drop left)]
    rw [List.drop_drop, Nat.add_sub_cancel' hle]
  have hbefore : (xs.take left).filter p = [] := by
    rw [List.filter_eq_nil_iff]
    intro x hx
    obtain ⟨i, hi, rfl⟩ := List.getElem_of_mem hx
    rw [List.length_take] at hi
    rw [List.getElem_take, h]
    omega
  have hinside : ((xs.drop left).take (stop - left)).filter p =
      (xs.drop left).take (stop - left) := by
    rw [List.filter_eq_self]
    intro x hx
    obtain ⟨i, hi, rfl⟩ := List.getElem_of_mem hx
    rw [List.length_take, List.length_drop] at hi
    rw [List.getElem_take, List.getElem_drop, h]
    omega
  have hbehind : (xs.drop stop).filter p = [] := by
    rw [List.filter_eq_nil_iff]
    intro x hx
    obtain ⟨i, hi, rfl⟩ := List.getElem_of_mem hx
    rw [List.length_drop] at hi
    rw [List.getElem_drop, h]
    omega
  conv_lhs => rw [hsplit]
  rw [List.filter_append, List.filter_append, hbefore, hinside, hbehind, List.nil_append,
    List.append_nil]

/-! ### Any sequence

The searches end inside the sequence, whether it is sorted or not. -/

section Total

variable (htest : ∀ i < size, ∃ ordering, test i = .ok ordering)
include htest

end Total

end Pnet.Lib.SortedSearch
