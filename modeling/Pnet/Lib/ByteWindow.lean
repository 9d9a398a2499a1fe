import Pnet.Lib.Bits
import Pnet.Lib.Radix

/-! Bytes at an address of a memory. What a program computes in every memory that holds some
bytes, it computes from these bytes alone: the memory may have none anywhere else. -/
namespace Pnet.Lib

/-- The memory holds the bytes from the address on. -/
def Window (m : Nat → Option (BitVec 8)) (addr : Nat) (bytes : List (BitVec 8)) : Prop :=
  ∀ i < bytes.length, m (addr + i) = bytes[i]?

/-- The number of `size` bytes at `offset`, least significant byte first. -/
def littleEndian (bytes : List (BitVec 8)) (offset size : Nat) : Nat :=
  Radix.value ((bytes.drop offset).take size)

variable {m : Nat → Option (BitVec 8)} {addr : Nat} {bytes : List (BitVec 8)}

namespace Window

theorem nil (m : Nat → Option (BitVec 8)) (addr : Nat) : Window m addr [] :=
  fun _ h => absurd h (Nat.not_lt_zero _)

theorem cons {b : BitVec 8} : Window m addr (b :: bytes) ↔
    m addr = some b ∧ Window m (addr + 1) bytes := by
  constructor
  · intro h
    refine ⟨h 0 (Nat.zero_lt_succ _), fun i hi => ?_⟩
    rw [Nat.add_assoc, Nat.add_comm 1 i]
    exact h (i + 1) (Nat.succ_lt_succ hi)
  · rintro ⟨hfirst, hrest⟩ i hi
    cases i with
    | zero => exact hfirst
    | succ i =>
      rw [Nat.add_comm i 1, ← Nat.add_assoc, Nat.add_comm 1 i]
      exact hrest i (Nat.lt_of_succ_lt_succ hi)

theorem append {left right : List (BitVec 8)} : Window m addr (left ++ right) ↔
    Window m addr left ∧ Window m (addr + left.length) right := by
  induction left generalizing addr with
  | nil => exact ⟨fun h => ⟨nil m addr, h⟩, fun h => h.2⟩
  | cons b left ih =>
    rw [List.cons_append, cons, ih, cons, List.length_cons, and_assoc, Nat.add_assoc,
      Nat.add_comm 1]

theorem drop (h : Window m addr bytes) (n : Nat) (hn : n ≤ bytes.length) :
    Window m (addr + n) (bytes.drop n) := by
  rw [← List.take_append_drop n bytes, append, List.length_take, min_eq_left hn] at h
  exact h.2

theorem slice (h : Window m addr bytes) {n k : Nat} (hn : n + k ≤ bytes.length) :
    Window m (addr + n) ((bytes.drop n).take k) := by
  have hdrop := h.drop n (by omega)
  rw [← List.take_append_drop k (bytes.drop n), append] at hdrop
  exact hdrop.1

end Window

end Pnet.Lib

/-! ### Writing over bytes

Bytes that are written over in place. -/
namespace Pnet.Lib

/-- The bytes with `part` from `posn` on. -/
def patch (bytes : List (BitVec 8)) (posn : Nat) (part : List (BitVec 8)) : List (BitVec 8) :=
  bytes.take posn ++ (part ++ bytes.drop (posn + part.length))

/-- The bytes have `part` from `posn` on. -/
abbrev Holds (bytes : List (BitVec 8)) (posn : Nat) (part : List (BitVec 8)) : Prop :=
  Window (fun i => bytes[i]?) posn part

variable {bytes part new : List (BitVec 8)} {posn posn' : Nat}

theorem length_patch (h : posn + part.length ≤ bytes.length) :
    (patch bytes posn part).length = bytes.length := by
  simp only [patch, List.length_append, List.length_take, List.length_drop]
  omega

theorem getElem?_patch (h : posn + part.length ≤ bytes.length) (i : Nat) :
    (patch bytes posn part)[i]? =
      if posn ≤ i ∧ i < posn + part.length then part[i - posn]? else bytes[i]? := by
  have htake : (bytes.take posn).length = posn := by
    rw [List.length_take]
    omega
  unfold patch
  split_ifs with hi
  · rw [List.getElem?_append_right (by omega), htake, List.getElem?_append_left (by omega)]
  · by_cases hbefore : i < posn
    · rw [List.getElem?_append_left (by omega), List.getElem?_take_of_lt hbefore]
    · rw [List.getElem?_append_right (by omega), htake, List.getElem?_append_right (by omega),
        List.getElem?_drop]
      congr 1
      omega

theorem holds_patch (h : posn + part.length ≤ bytes.length) :
    Holds (patch bytes posn part) posn part := by
  intro i hi
  simp only [getElem?_patch h]
  rw [if_pos (by omega)]
  congr 1
  omega

theorem le_length_patch (h : posn ≤ bytes.length) (part : List (BitVec 8)) :
    posn + part.length ≤ (patch bytes posn part).length := by
  simp only [patch, List.length_append, List.length_take, List.length_drop]
  omega

@[simp] theorem patch_nil (bytes : List (BitVec 8)) (posn : Nat) : patch bytes posn [] = bytes := by
  simp [patch]

/-- Writing at the end. -/
theorem patch_length (bytes part : List (BitVec 8)) : patch bytes bytes.length part = bytes ++ part := by
  rw [patch, List.take_length, List.drop_eq_nil_of_le (Nat.le_add_right ..), List.append_nil]

/-- What lies there already. -/
theorem patch_self (bytes : List (BitVec 8)) (posn size : Nat)
    (h : posn + size ≤ bytes.length) : patch bytes posn ((bytes.drop posn).take size) = bytes := by
  have hlength : ((bytes.drop posn).take size).length = size := by
    rw [List.length_take, List.length_drop]
    omega
  rw [patch, hlength, ← List.drop_drop, List.take_append_drop, List.take_append_drop]

/-- Writing over a part that has been written. -/
theorem patch_patch {k : Nat} (hpart : posn + part.length ≤ bytes.length)
    (hnew : k + new.length ≤ part.length) :
    patch bytes posn (patch part k new) = patch (patch bytes posn part) (posn + k) new := by
  apply List.ext_getElem?
  intro i
  have hlength := length_patch hnew
  have hover : posn + k + new.length ≤ (patch bytes posn part).length := by
    rw [length_patch hpart]
    omega
  rw [getElem?_patch (by omega), getElem?_patch hnew, hlength,
    getElem?_patch hover, getElem?_patch hpart]
  by_cases hinside : posn + k ≤ i ∧ i < posn + k + new.length
  · rw [if_pos (by omega), if_pos (by omega), if_pos hinside, Nat.sub_add_eq]
  · rw [if_neg hinside]
    by_cases hpatched : posn ≤ i ∧ i < posn + part.length
    · rw [if_pos hpatched, if_pos hpatched, if_neg (by omega)]
    · rw [if_neg hpatched, if_neg hpatched]

section Append

variable (left right : List (BitVec 8))

theorem patch_append_right (posn : Nat) (part : List (BitVec 8)) :
    patch (left ++ right) (left.length + posn) part = left ++ patch right posn part := by
  rw [patch, List.take_length_add_append, Nat.add_assoc, List.drop_length_add_append,
    List.append_assoc, patch]

theorem patch_append_left (h : posn + part.length ≤ left.length) :
    patch (left ++ right) posn part = patch left posn part ++ right := by
  rw [patch, List.take_append_of_le_length (by omega), List.drop_append_of_le_length h, patch]
  simp only [List.append_assoc]

/-- A part that goes on from the end of the first bytes to the others. -/
theorem patch_append (h : posn + part.length = left.length) (new : List (BitVec 8)) :
    patch (left ++ right) posn (part ++ new) = patch left posn part ++ patch right 0 new := by
  have hover : left.drop (posn + part.length) = [] := List.drop_eq_nil_of_le h.ge
  rw [patch, List.take_append_of_le_length (by omega), List.length_append, ← Nat.add_assoc, h,
    List.drop_length_add_append]
  simp only [patch, hover, List.append_nil, List.take_zero, Nat.zero_add, List.nil_append,
    List.append_assoc]

end Append

namespace Holds

/-- What lies apart from the place that is written stays. -/
theorem patch (h : Holds bytes posn part) (hfit : posn' + new.length ≤ bytes.length)
    (hapart : posn' + new.length ≤ posn ∨ posn + part.length ≤ posn') :
    Holds (patch bytes posn' new) posn part := by
  intro i hi
  simp only [getElem?_patch hfit]
  rw [if_neg (by omega)]
  exact h i hi

theorem append (h : Holds bytes posn part) (new : List (BitVec 8)) :
    Holds (bytes ++ new) posn part := by
  intro i hi
  have hsome := h i hi
  have hlt : posn + i < bytes.length := by
    by_contra hge
    simp only [List.getElem?_eq_none (not_lt.1 hge), List.getElem?_eq_getElem hi] at hsome
    cases hsome
  simp only [List.getElem?_append_left hlt]
  exact hsome

end Holds

theorem holds_append (bytes part : List (BitVec 8)) :
    Holds (bytes ++ part) bytes.length part := by
  intro i _
  simp only [List.getElem?_append_right (Nat.le_add_right bytes.length i),
    Nat.add_sub_cancel_left]

end Pnet.Lib
