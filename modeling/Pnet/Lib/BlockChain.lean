import Mathlib

/-! A sequence kept in blocks, of which only the last one grows. What was found at an offset
is found there for ever, and at one place of one block. -/
namespace Pnet.Lib.BlockChain

variable {α : Type}

/-- The block of an offset, the offset in it, and what it holds from there on. -/
def find : List (List α) → Nat → Option (Nat × Nat × List α)
  | [], _ => none
  | block :: blocks, offset =>
    if block.length ≤ offset then
      (find blocks (offset - block.length)).map fun found => (found.1 + 1, found.2)
    else some (0, offset, block.drop offset)

/-- The number of items. -/
def size (blocks : List (List α)) : Nat := (blocks.map List.length).sum

/-- Blocks with more items at the end of the last one, or in blocks behind it. -/
inductive Grows : List (List α) → List (List α) → Prop where
  | behind (blocks more : List (List α)) : Grows blocks (blocks ++ more)
  | last (blocks : List (List α)) (block more : List α) :
      Grows (blocks ++ [block]) (blocks ++ [block ++ more])

variable {blocks blocks' : List (List α)} {offset i posn : Nat} {items : List α}

@[simp] theorem size_append (left right : List (List α)) :
    size (left ++ right) = size left + size right := by
  rw [size, List.map_append, List.sum_append, ← size, ← size]

@[simp] theorem size_singleton (block : List α) : size [block] = block.length := by
  simp [size]

theorem find_lt (h : find blocks offset = some (i, posn, items)) : offset < size blocks := by
  induction blocks generalizing offset i with
  | nil => cases h
  | cons block blocks ih =>
    unfold find at h
    rw [← List.singleton_append, size_append, size_singleton]
    split_ifs at h with hle
    · obtain ⟨⟨i', found⟩, hfound, heq⟩ := Option.map_eq_some_iff.1 h
      cases heq
      have hlt := ih hfound
      omega
    · omega

/-- The items are those of the block itself. -/
theorem find_block (h : find blocks offset = some (i, posn, items)) :
    ∃ block, blocks[i]? = some block ∧ items = block.drop posn ∧ posn < block.length := by
  induction blocks generalizing offset i with
  | nil => cases h
  | cons block blocks ih =>
    unfold find at h
    split_ifs at h with hle
    · obtain ⟨⟨i', posn', items'⟩, hfound, heq⟩ := Option.map_eq_some_iff.1 h
      cases heq
      exact ih hfound
    · cases h
      exact ⟨block, rfl, rfl, Nat.not_le.1 hle⟩

/-- They are in the sequence, and not in front of the offset. -/
theorem find_le (h : find blocks offset = some (i, posn, items)) :
    posn ≤ offset ∧ offset + items.length ≤ size blocks := by
  induction blocks generalizing offset i with
  | nil => cases h
  | cons block blocks ih =>
    unfold find at h
    rw [← List.singleton_append, size_append, size_singleton]
    split_ifs at h with hle
    · obtain ⟨⟨i', found⟩, hfound, heq⟩ := Option.map_eq_some_iff.1 h
      cases heq
      have hrest := ih hfound
      omega
    · cases h
      rw [List.length_drop]
      omega

theorem find_cons_append (block : List α) (blocks : List (List α)) (k : Nat) :
    find (block :: blocks) (block.length + k) =
      (find blocks k).map fun found => (found.1 + 1, found.2) := by
  rw [find, if_pos (Nat.le_add_right _ _), Nat.add_sub_cancel_left]

theorem find_head {block : List α} {k : Nat} (hk : k < block.length) (rest : List (List α)) :
    find (block :: rest) k = some (0, k, block.drop k) := by
  rw [find, if_neg (Nat.not_le.2 hk)]

theorem Grows.cons (h : Grows blocks blocks') (block : List α) :
    Grows (block :: blocks) (block :: blocks') := by
  cases h with
  | behind _ more => exact .behind (block :: blocks) more
  | last init last more => exact .last (block :: init) last more

/-- What was found is found again, with more behind it. -/
theorem Grows.find (h : Grows blocks blocks')
    (hfind : BlockChain.find blocks offset = some (i, posn, items)) :
    ∃ more, BlockChain.find blocks' offset = some (i, posn, items ++ more) := by
  cases h with
  | behind _ more =>
    refine ⟨[], ?_⟩
    rw [List.append_nil]
    induction blocks generalizing offset i with
    | nil => cases hfind
    | cons block blocks ih =>
      rw [List.cons_append]
      unfold BlockChain.find at hfind ⊢
      split_ifs at hfind ⊢ with hle
      · obtain ⟨⟨i', found⟩, hfound, heq⟩ := Option.map_eq_some_iff.1 hfind
        cases heq
        rw [ih hfound]
        rfl
      · exact hfind
  | last init block more =>
    induction init generalizing offset i with
    | nil =>
      rw [List.nil_append] at hfind ⊢
      have hlt := find_lt hfind
      rw [size_singleton] at hlt
      rw [find_head hlt] at hfind
      cases hfind
      refine ⟨more, ?_⟩
      rw [find_head (by rw [List.length_append]; omega), List.drop_append_of_le_length (Nat.le_of_lt hlt)]
    | cons first init ih =>
      rw [List.cons_append] at hfind ⊢
      unfold BlockChain.find at hfind ⊢
      split_ifs at hfind ⊢ with hle
      · obtain ⟨⟨i', found⟩, hfound, heq⟩ := Option.map_eq_some_iff.1 hfind
        cases heq
        obtain ⟨more, hmore⟩ := ih hfound
        exact ⟨more, by rw [hmore]; rfl⟩
      · cases hfind
        exact ⟨[], by rw [List.append_nil]⟩

end Pnet.Lib.BlockChain
