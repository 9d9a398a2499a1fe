import Pnet.Lib.Agree
import Pnet.Support.Lists

/-! The array list against the sequence. -/
namespace Pnet.Support

variable {σ : Type}

namespace Buffer

variable {buf : Buffer} {i : Nat}

theorem inBounds_natCast (h : 8 * i + 8 ≤ buf.size) : buf.InBounds i := by
  unfold InBounds
  omega

theorem load_natCast (h : 8 * i + 8 ≤ buf.size) : buf.load i = some (buf.elem i) := by
  unfold load
  rw [if_pos (inBounds_natCast h), Int.toNat_natCast]

variable (buf) in
theorem store_natCast (h : 8 * i + 8 ≤ buf.size) (data : Ptr) :
    ∃ buf', buf.store i data = some buf' ∧ buf'.size = buf.size ∧
      ∀ j, buf'.elem j = if j = i then data else buf.elem j := by
  unfold store
  rw [if_pos (inBounds_natCast h)]
  refine ⟨_, rfl, rfl, fun j => ?_⟩
  funext k
  unfold elem
  simp only [Int.toNat_natCast]
  by_cases hj : j = i
  · subst hj
    have hin : 8 * j ≤ 8 * j + k.val ∧ 8 * j + k.val < 8 * j + 8 := by omega
    rw [dif_pos hin, if_pos rfl]
    congr 1
    apply Fin.ext
    exact Nat.add_sub_cancel_left ..
  · have hout : ¬ (8 * i ≤ 8 * j + k.val ∧ 8 * j + k.val < 8 * i + 8) := by omega
    rw [dif_neg hout, if_neg hj]

variable (buf) in
/-- Moving `len` bytes down by one element. -/
theorem copyWithin_down {len : Nat} (hlen : len ≤ 8) (h : 8 * (i + 1) + len ≤ buf.size) :
    ∃ buf', buf.copyWithin (8 * i) (8 * (i + 1)) len = some buf' ∧ buf'.size = buf.size ∧
      ∀ j (k : Fin 8), buf'.elem j k =
        if 8 * i ≤ 8 * j + k ∧ 8 * j + k < 8 * i + len then buf.elem (j + 1) k
        else buf.elem j k := by
  have happart : 8 * i + len ≤ 8 * (i + 1) ∨ 8 * (i + 1) + len ≤ 8 * i := by omega
  have hbounds : 8 * i + len ≤ buf.size ∧ 8 * (i + 1) + len ≤ buf.size := by omega
  unfold copyWithin copyFrom
  rw [if_pos happart, if_pos hbounds]
  refine ⟨_, rfl, rfl, fun j k => ?_⟩
  unfold elem
  dsimp only
  by_cases hin : 8 * i ≤ 8 * j + k ∧ 8 * j + k < 8 * i + len
  · rw [if_pos hin, if_pos hin]
    congr 1
    omega
  · rw [if_neg hin, if_neg hin]

theorem copyWithin_none {len : Nat} (hlen : ¬ len ≤ 8) :
    buf.copyWithin (8 * i) (8 * (i + 1)) len = none := by
  have hoverlap : ¬ (8 * i + len ≤ 8 * (i + 1) ∨ 8 * (i + 1) + len ≤ 8 * i) := by omega
  unfold copyWithin
  rw [if_neg hoverlap]

end Buffer

/-- The elements of a sequence are in the buffer. -/
structure Holds (array : Buffer) (elems : List Ptr) : Prop where
  size : 8 * elems.length ≤ array.size
  elem : ∀ i data, elems[i]? = some data → array.elem i = data

namespace Holds

variable {array : Buffer} {elems pre post : List Ptr} {elem : Ptr}

theorem load (h : Holds array elems) {i : Nat} (hi : elems[i]? = some elem) :
    array.load i = some elem := by
  have hlt := (List.getElem?_eq_some_iff.1 hi).1
  have hsize := h.size
  rw [Buffer.load_natCast (by omega), h.elem i elem hi]

theorem load_append (h : Holds array (pre ++ elem :: post)) :
    array.load pre.length = some elem := by
  apply h.load
  rw [List.getElem?_append_right (Nat.le_refl _), Nat.sub_self]
  rfl

theorem store (h : Holds array elems) {i : Nat} (hi : i < elems.length) (data : Ptr) :
    ∃ array', array.store i data = some array' ∧ array'.size = array.size ∧
      Holds array' (elems.set i data) := by
  have hsize := h.size
  obtain ⟨array', hstore, hsize', helem⟩ :=
    Buffer.store_natCast array (i := i) (by omega) data
  refine ⟨array', hstore, hsize', ?_, ?_⟩
  · rw [List.length_set, hsize']
    exact hsize
  · intro j x hx
    rw [helem]
    by_cases hj : j = i
    · subst hj
      rw [List.getElem?_set_self hi] at hx
      rw [if_pos rfl]
      exact Option.some.inj hx
    · rw [List.getElem?_set_ne (Ne.symm hj)] at hx
      rw [if_neg hj]
      exact h.elem j x hx

theorem store_append (h : Holds array (pre ++ elem :: post)) (data : Ptr) :
    ∃ array', array.store pre.length data = some array' ∧ array'.size = array.size ∧
      Holds array' (pre ++ data :: post) := by
  have hlt : pre.length < (pre ++ elem :: post).length := by simp
  obtain ⟨array', hstore, hsize, h'⟩ := h.store hlt data
  refine ⟨array', hstore, hsize, ?_⟩
  rwa [List.set_append_right _ _ (Nat.le_refl _), Nat.sub_self] at h'

variable (pre) in
theorem findFrom (h : Holds array (pre ++ post)) (data : Ptr) :
    Support.findFrom array data post.length pre.length =
      some ((post.idxOf? data).map (· + pre.length)) := by
  induction post generalizing pre with
  | nil => rfl
  | cons elem post ih =>
    have hnext := ih (pre ++ [elem]) (by simpa using h)
    rw [List.length_append, List.length_singleton] at hnext
    rw [List.length_cons, Support.findFrom, h.load_append, List.idxOf?_cons]
    simp only [Option.bind_eq_bind, Option.bind_some, beq_iff_eq]
    by_cases heq : elem = data
    · rw [if_pos heq, if_pos heq, Option.map_some, Nat.zero_add]
    · rw [if_neg heq, if_neg heq, hnext, Option.map_map]
      congr 2
      funext i
      simp only [Function.comp_apply]
      omega

variable (pre) in
theorem walkFrom (h : Holds array (pre ++ post)) (callback : ILListWalkCallback σ) (state : σ) :
    ∃ array', Support.walkFrom callback post.length pre.length array state =
        some (array', pre.length + (walkElems callback state post).2.1,
          (walkElems callback state post).2.2) ∧
      array'.size = array.size ∧ Holds array' (pre ++ (walkElems callback state post).1) := by
  induction post generalizing pre array state with
  | nil => exact ⟨array, rfl, rfl, h⟩
  | cons elem post ih =>
    obtain ⟨array₁, hstore, hsize₁, h₁⟩ := h.store_append (callback state elem).2.1
    rw [List.length_cons, Support.walkFrom, h.load_append]
    simp only [Option.bind_eq_bind, Option.bind_some, hstore]
    unfold walkElems
    by_cases hmore : (callback state elem).1 = true
    · simp only [if_pos hmore]
      obtain ⟨array', hwalk, hsize, h'⟩ :=
        ih (pre ++ [(callback state elem).2.1]) (by simpa using h₁)
          (callback state elem).2.2
      rw [List.length_append, List.length_singleton] at hwalk
      refine ⟨array', ?_, hsize.trans hsize₁, by simpa using h'⟩
      rw [hwalk, Nat.add_right_comm, Nat.add_assoc]
    · simp only [if_neg hmore]
      exact ⟨array₁, rfl, hsize₁, h₁⟩

end Holds

theorem lastIdxOf?_append (data elem : Ptr) (elems : List Ptr) :
    lastIdxOf? data (elems ++ [elem]) =
      if elem = data then some elems.length else lastIdxOf? data elems := by
  induction elems with
  | nil => rfl
  | cons x elems ih =>
    rw [List.cons_append, lastIdxOf?, ih]
    by_cases heq : elem = data
    · simp only [if_pos heq, List.length_cons]
    · simp only [if_neg heq]
      rfl

theorem Holds.reverseFindFrom {array : Buffer} {elems : List Ptr} (h : Holds array elems)
    (data : Ptr) :
    Support.reverseFindFrom array data elems.length = some (lastIdxOf? data elems) := by
  induction elems using List.reverseRecOn with
  | nil => rfl
  | append_singleton elems elem ih =>
    have hshort : Holds array elems := by
      refine ⟨?_, fun i x hx => h.elem i x ?_⟩
      · have hsize := h.size
        rw [List.length_append] at hsize
        omega
      · rw [List.getElem?_append_left (List.getElem?_eq_some_iff.1 hx).1]
        exact hx
    rw [List.length_append, List.length_singleton, Support.reverseFindFrom, h.load_append,
      lastIdxOf?_append]
    simp only [Option.bind_eq_bind, Option.bind_some]
    by_cases heq : elem = data
    · rw [if_pos heq, if_pos heq]
    · rw [if_neg heq, if_neg heq]
      exact ih hshort

theorem lastIdxOf?_lt {data : Ptr} {elems : List Ptr} {i : Nat} (h : lastIdxOf? data elems = some i) :
    i < elems.length := by
  induction elems generalizing i with
  | nil => cases h
  | cons elem elems ih =>
    rw [lastIdxOf?] at h
    rw [List.length_cons]
    cases hlast : lastIdxOf? data elems with
    | some j =>
      rw [hlast] at h
      cases h
      exact Nat.succ_lt_succ (ih hlast)
    | none =>
      rw [hlast] at h
      dsimp only at h
      split at h
      · cases h
        exact Nat.succ_pos _
      · cases h

theorem idxAt?_eq_some {elems : List Ptr} {index : Int} {i : Nat}
    (h : idxAt? elems index = some i) : i < elems.length ∧ index = i := by
  unfold idxAt? at h
  split at h
  · cases h
    omega
  · cases h

namespace ILArrayList

def contents (list : ILArrayList) : List Ptr :=
  (List.range list.count.toNat).map list.array.elem

/-- The list is a sequence: its count, and the element at every index. -/
def Is (list : ILArrayList) (elems : List Ptr) : Prop :=
  list.count = elems.length ∧ list.contents = elems

structure Inv (capacity : Nat) (list : ILArrayList) (elems : List Ptr) : Prop where
  count : list.count = elems.length
  capacity_eq : list.capacity = capacity
  size : list.array.size = capacity * 8
  le : elems.length ≤ capacity
  pos : 0 < capacity
  holds : Holds list.array elems

variable {capacity : Nat} {list : ILArrayList} {elems : List Ptr} {garbage : Garbage}

theorem contents_eq_iff (hcount : list.count = elems.length) :
    list.contents = elems ↔ ∀ i data, elems[i]? = some data → list.array.elem i = data := by
  have hlength : list.count.toNat = elems.length := by omega
  unfold contents
  rw [hlength]
  constructor
  · intro heq i data hi
    have hlt := (List.getElem?_eq_some_iff.1 hi).1
    rw [← heq, List.getElem?_map, List.getElem?_range hlt] at hi
    exact Option.some.inj hi
  · intro helem
    apply List.ext_getElem?
    intro i
    by_cases hi : i < elems.length
    · rw [List.getElem?_map, List.getElem?_range hi, Option.map_some, List.getElem?_eq_getElem hi]
      exact congrArg some (helem i _ (List.getElem?_eq_getElem hi))
    · rw [List.getElem?_eq_none (by simpa using hi), List.getElem?_eq_none (by omega)]

theorem Inv.is (h : Inv capacity list elems) : list.Is elems :=
  ⟨h.count, (contents_eq_iff h.count).2 h.holds.elem⟩

theorem inv_create (garbage : Garbage) (capacity : Int) :
    Inv (max capacity 16).toNat (ilArrayListCreate garbage capacity) [] := by
  have hcapacity : (ilArrayListCreate garbage capacity).capacity = (max capacity 16).toNat := by
    unfold ilArrayListCreate
    dsimp only
    split <;> omega
  refine ⟨rfl, hcapacity, congrArg (· * 8) hcapacity, Nat.zero_le _, by omega, Nat.zero_le _, ?_⟩
  intro i data hi
  cases hi

/-! ### The operations -/

variable (garbage) in
theorem Inv.append (h : Inv capacity list elems) (hroom : elems.length < capacity) (data : Ptr) :
    ∃ list', ilArrayListAppend garbage list data = some (list', (elems.length : Int)) ∧
      Inv capacity list' (elems ++ [data]) := by
  have hcapacity := h.capacity_eq
  have hcount := h.count
  have hsize := h.size
  have hfull : ¬ list.count = list.capacity := by omega
  obtain ⟨array, hstore, hsize', helem⟩ :=
    Buffer.store_natCast list.array (i := elems.length) (by omega) data
  unfold ilArrayListAppend
  rw [if_neg hfull]
  simp only [Option.bind_eq_bind, Option.bind_some, hcount, hstore]
  refine ⟨_, rfl, by simp, hcapacity, hsize'.trans hsize, by simpa using Nat.succ_le_of_lt hroom, h.pos, ?_, ?_⟩
  · rw [List.length_append, List.length_singleton]
    dsimp only
    omega
  · intro i x hx
    dsimp only
    rw [helem]
    by_cases hi : i = elems.length
    · subst hi
      rw [List.getElem?_append_right (Nat.le_refl _), Nat.sub_self] at hx
      rw [if_pos rfl]
      exact Option.some.inj hx
    · rw [if_neg hi]
      apply h.holds.elem i x
      have hlt := (List.getElem?_eq_some_iff.1 hx).1
      rw [List.length_append, List.length_singleton] at hlt
      rwa [List.getElem?_append_left (by omega)] at hx

/-- The block that a full array moves to is a quarter of what is copied into it. -/
theorem Inv.append_none (h : Inv capacity list elems) (hfull : ¬ elems.length < capacity)
    (data : Ptr) : ilArrayListAppend garbage list data = none := by
  have hle := h.le
  have hpos := h.pos
  have hcapacity := h.capacity_eq
  have hcount := h.count
  have hcount' : list.count = list.capacity := by omega
  have hbounds : ¬ (0 + list.capacity * 8 ≤ list.capacity * 2 ∧
      0 + list.capacity * 8 ≤ list.array.size) := by omega
  unfold ilArrayListAppend ILArrayList.grow Buffer.copyFrom
  rw [if_pos hcount', if_neg hbounds]
  rfl

theorem Inv.getAt (h : Inv capacity list elems) (index : Int) :
    ilArrayListGetAt list index =
      some (((idxAt? elems index).bind (elems[·]?)).getD nullPtr) := by
  unfold ilArrayListGetAt idxAt?
  rw [h.count]
  by_cases hneg : index < 0
  · rw [if_pos hneg, if_neg (by omega)]
    rfl
  · by_cases hge : (elems.length : Int) ≤ index
    · rw [if_neg hneg, if_pos hge, if_neg (by omega)]
      rfl
    · have hlt : index.toNat < elems.length := by omega
      have hload := h.holds.load (List.getElem?_eq_getElem hlt)
      rw [Int.toNat_of_nonneg (by omega)] at hload
      rw [if_neg hneg, if_neg hge, if_pos (by omega), hload, Option.bind_some,
        List.getElem?_eq_getElem hlt]
      rfl

theorem Inv.find (h : Inv capacity list elems) (data : Ptr) :
    ilArrayListFind list data = some (elems.idxOf? data) := by
  have hfind := h.holds.findFrom [] data
  have hcount : list.count.toNat = elems.length := by
    rw [h.count]
    rfl
  unfold ilArrayListFind
  rw [hcount]
  exact hfind.trans (by simp)

theorem Inv.reverseFind (h : Inv capacity list elems) (data : Ptr) :
    ilArrayListReverseFind list data = some (lastIdxOf? data elems) := by
  have hcount : list.count.toNat = elems.length := by
    rw [h.count]
    rfl
  unfold ilArrayListReverseFind
  rw [hcount]
  exact h.holds.reverseFindFrom data

theorem Inv.setFound (h : Inv capacity list elems) (value : Ptr) {found : Option Nat}
    (hfound : ∀ i, found = some i → i < elems.length) :
    ∃ list', list.setFound (σ := σ) value found = some (list', (setIdx elems value found).2) ∧
      Inv capacity list' (setIdx (σ := σ) elems value found).1 := by
  cases found with
  | none => exact ⟨list, rfl, h⟩
  | some i =>
    obtain ⟨array, hstore, hsize, hholds⟩ := h.holds.store (hfound i rfl) value
    simp only [ILArrayList.setFound, setIdx, hstore, Option.map_some]
    refine ⟨_, rfl, ?_, h.capacity_eq, hsize.trans h.size, ?_, h.pos, hholds⟩
    · rw [List.length_set]
      exact h.count
    · rw [List.length_set]
      exact h.le

theorem walkElems_length (callback : ILListWalkCallback σ) (state : σ) (elems : List Ptr) :
    (walkElems callback state elems).1.length = elems.length := by
  induction elems generalizing state with
  | nil => rfl
  | cons elem elems ih =>
    unfold walkElems
    by_cases hmore : (callback state elem).1 = true
    · simp only [if_pos hmore, List.length_cons, ih]
    · simp only [if_neg hmore, List.length_cons]

theorem Inv.walk (h : Inv capacity list elems) (callback : ILListWalkCallback σ) (state : σ) :
    ∃ list', ilArrayListWalk list callback state =
        some (list', (walkElems callback state elems).2) ∧
      Inv capacity list' (walkElems callback state elems).1 := by
  have hcount : list.count.toNat = elems.length := by
    rw [h.count]
    rfl
  have hlength := walkElems_length callback state elems
  obtain ⟨array, hwalk, hsize, hholds⟩ := h.holds.walkFrom [] callback state
  unfold ilArrayListWalk
  rw [hcount]
  simp only [List.length_nil, Nat.zero_add] at hwalk
  simp only [Option.bind_eq_bind, hwalk, Option.bind_some]
  refine ⟨_, rfl, ?_, h.capacity_eq, hsize.trans h.size, ?_, h.pos, hholds⟩
  · rw [hlength]
    exact h.count
  · rw [hlength]
    exact h.le

/-! ### Removal -/

/-- The count alone tells that nothing is removed, or that something is that was not there. -/
theorem Inv.remove_wrong (h : Inv capacity list elems) (data : Ptr) {list' : ILArrayList}
    {index : Int} (hrun : ilArrayListRemove list data = some (list', index)) :
    ¬ list'.Is (removeIdx (σ := σ) elems (elems.idxOf? data)).1 := by
  intro his
  have hcount := his.1
  have hfind : Support.findFrom list.array data list.count.toNat 0 = some (elems.idxOf? data) :=
    h.find data
  unfold ilArrayListRemove at hrun
  rw [hfind] at hrun
  simp only [Option.bind_eq_bind, Option.bind_some] at hrun
  cases hidx : elems.idxOf? data with
  | none =>
    rw [hidx] at hrun hcount
    cases hrun
    simp only [removeIdx, h.count] at hcount
    omega
  | some i =>
    have hi : i < elems.length := by
      have := List.idxOf?_eq_some_iff.1 hidx
      grind
    rw [hidx] at hrun hcount
    cases hrun
    simp only [removeIdx, h.count, List.length_eraseIdx, if_pos hi] at hcount
    omega

/-- What the rest of the elements must be like for their bytes to end up in place. -/
theorem shifts_iff {removed : Ptr} {rest : List Ptr} :
    Shifts removed rest ↔ rest.length ≤ 8 ∧ ∀ j elem elem', (removed :: rest)[j]? = some elem →
      rest[j]? = some elem' → ∀ k : Fin 8, rest.length ≤ 8 * j + k → elem k = elem' k := by
  unfold Shifts
  refine and_congr_right fun hle => ?_
  constructor
  · intro h j elem elem' helem helem' k hk
    obtain ⟨hall, hbytes⟩ := h elem' (List.mem_of_getElem? helem')
    cases j with
    | zero =>
      cases helem
      exact hbytes k (by omega)
    | succ j =>
      rw [List.getElem?_cons_succ] at helem
      exact congrFun (hall elem (List.mem_of_getElem? helem)) k
  · intro h elem helem
    have hsame : ∀ (j : Nat) (elem : Ptr), rest[j]? = some elem → rest[0]? = some elem := by
      intro j
      induction j with
      | zero => exact fun _ helem => helem
      | succ j ih =>
        intro elem helem
        have hlt := (List.getElem?_eq_some_iff.1 helem).1
        have hprev := List.getElem?_eq_getElem (Nat.lt_of_succ_lt hlt)
        have hstep : rest[j] = elem := by
          funext k
          exact h (j + 1) _ elem (by rwa [List.getElem?_cons_succ]) helem k (by omega)
        exact ih elem (hstep ▸ hprev)
    obtain ⟨i, hi⟩ := List.mem_iff_getElem?.1 helem
    have hfirst := hsame i elem hi
    refine ⟨fun elem' helem' => ?_, fun k hk => ?_⟩
    · obtain ⟨i', hi'⟩ := List.mem_iff_getElem?.1 helem'
      exact Option.some.inj ((hsame i' elem' hi').symm.trans hfirst)
    · exact h 0 removed elem rfl hfirst k (by omega)

section
variable (h : Inv capacity list elems) {i : Nat} {removed : Ptr} (hi : elems[i]? = some removed)
include h hi

/-- The `len` bytes that are moved, and what the list holds then. -/
theorem Inv.removeAt (hlen : (elems.drop (i + 1)).length ≤ 8) :
    ∃ list', ilArrayListRemoveAt list i = some (list', (i : Int)) ∧
      list'.count = (elems.eraseIdx i).length ∧ list'.capacity = capacity ∧
      list'.array.size = capacity * 8 ∧
      ∀ j (k : Fin 8), j < (elems.eraseIdx i).length → list'.array.elem j k =
        if 8 * i ≤ 8 * j + k ∧ 8 * j + k < 8 * i + (elems.drop (i + 1)).length then
          list.array.elem (j + 1) k
        else list.array.elem j k := by
  have hlt := (List.getElem?_eq_some_iff.1 hi).1
  have hlength : (elems.eraseIdx i).length = elems.length - 1 := by
    rw [List.length_eraseIdx, if_pos hlt]
  have hsize := h.size
  have hle := h.le
  have hrest : (list.count - i - 1).toNat = (elems.drop (i + 1)).length := by
    rw [h.count, List.length_drop]
    omega
  have hlast : list.count - 1 = ((elems.length - 1 : Nat) : Int) := by
    rw [h.count]
    omega
  rw [List.length_drop] at hlen hrest ⊢
  obtain ⟨array₁, hcopy, hsize₁, helem₁⟩ :=
    Buffer.copyWithin_down list.array (i := i) hlen (by omega)
  obtain ⟨array₂, hstore, hsize₂, helem₂⟩ :=
    Buffer.store_natCast array₁ (i := elems.length - 1) (by omega) nullPtr
  unfold ilArrayListRemoveAt
  rw [if_neg (by omega), if_neg (by rw [h.count]; omega), Int.toNat_natCast, hrest, hcopy, hlast]
  simp only [Option.bind_eq_bind, Option.bind_some, hstore]
  refine ⟨_, rfl, ?_, h.capacity_eq, (hsize₂.trans hsize₁).trans hsize, fun j k hj => ?_⟩
  · rw [hlength]
  · dsimp only
    rw [helem₂, if_neg (by omega), helem₁]

theorem Inv.removeAt_none (hlen : ¬ (elems.drop (i + 1)).length ≤ 8) :
    ilArrayListRemoveAt list i = none := by
  have hlt := (List.getElem?_eq_some_iff.1 hi).1
  have hrest : (list.count - i - 1).toNat = (elems.drop (i + 1)).length := by
    rw [h.count, List.length_drop]
    omega
  unfold ilArrayListRemoveAt
  rw [if_neg (by omega), if_neg (by rw [h.count]; omega), Int.toNat_natCast, hrest,
    Buffer.copyWithin_none hlen]
  rfl

/-- The elements after the removed one have moved down exactly if they could. -/
theorem Inv.moved_iff {array : Buffer}
    (helem : ∀ j (k : Fin 8), j < (elems.eraseIdx i).length → array.elem j k =
      if 8 * i ≤ 8 * j + k ∧ 8 * j + k < 8 * i + (elems.drop (i + 1)).length then
        list.array.elem (j + 1) k
      else list.array.elem j k)
    (hlen : (elems.drop (i + 1)).length ≤ 8) :
    (∀ j data, (elems.eraseIdx i)[j]? = some data → array.elem j = data) ↔
      Shifts removed (elems.drop (i + 1)) := by
  have hlt := (List.getElem?_eq_some_iff.1 hi).1
  have hdrop : removed :: elems.drop (i + 1) = elems.drop i := by
    rw [List.drop_eq_getElem_cons hlt, (List.getElem?_eq_some_iff.1 hi).2]
  have holds := h.holds.elem
  rw [shifts_iff, hdrop]
  constructor
  · intro hmoved
    refine ⟨hlen, fun j elem elem' hj hj' k hk => ?_⟩
    rw [List.getElem?_drop] at hj hj'
    have hright : (elems.eraseIdx i)[i + j]? = some elem' := by
      rw [List.getElem?_eraseIdx, if_neg (by omega), ← hj']
      congr 1
      omega
    have hbound := (List.getElem?_eq_some_iff.1 hright).1
    have hbyte := helem (i + j) k hbound
    rw [if_neg (by omega), hmoved _ _ hright, holds _ _ hj] at hbyte
    exact hbyte.symm
  · intro hshifts j data hj
    funext k
    rw [helem j k (List.getElem?_eq_some_iff.1 hj).1]
    rw [List.getElem?_eraseIdx] at hj
    by_cases hji : j < i
    · rw [if_pos hji] at hj
      rw [if_neg (by omega), holds j data hj]
    · rw [if_neg hji] at hj
      by_cases hin : 8 * i ≤ 8 * j + k.val ∧ 8 * j + k.val < 8 * i + (elems.drop (i + 1)).length
      · rw [if_pos hin, holds _ data hj]
      · have hbound := (List.getElem?_eq_some_iff.1 hj).1
        have hprev := List.getElem?_eq_getElem (Nat.lt_of_succ_lt hbound)
        rw [if_neg hin, holds _ _ hprev]
        apply hshifts.2 (j - i) _ data _ _ k (by omega)
        · rw [List.getElem?_drop, ← hprev]
          congr 1
          omega
        · rw [List.getElem?_drop, ← hj]
          congr 1
          omega

end

theorem Inv.removeAt_out (h : Inv capacity list elems) {index : Int}
    (hidx : idxAt? elems index = none) : ilArrayListRemoveAt list index = some (list, -1) := by
  have hout : index < 0 ∨ list.count ≤ index := by
    rw [h.count]
    unfold idxAt? at hidx
    split at hidx
    · cases hidx
    · omega
  unfold ilArrayListRemoveAt
  cases hout with
  | inl hneg => rw [if_pos hneg]
  | inr hge => rw [if_pos hge, ite_self]

/-! ### The steps -/

theorem Inv.run_of_meets (h : Inv capacity list elems) (op : ListOp σ)
    (hmeets : arrayMeets capacity elems op) :
    ∃ list', ilArrayListRun garbage list op = some (list', (op.apply elems).2) ∧
      Inv capacity list' (op.apply elems).1 := by
  cases op with
  | append data =>
    obtain ⟨list', hrun, h'⟩ := h.append garbage hmeets data
    exact ⟨list', congrArg (Option.map _) hrun, h'⟩
  | remove data => exact absurd hmeets id
  | removeAt index =>
    rw [ilArrayListRun, ListOp.apply]
    cases hidx : idxAt? elems index with
    | none =>
      rw [h.removeAt_out hidx]
      exact ⟨list, rfl, h⟩
    | some i =>
      obtain ⟨hi, rfl⟩ := idxAt?_eq_some hidx
      have hget := List.getElem?_eq_getElem hi
      have hshifts := hmeets i _ hidx hget
      obtain ⟨list', hrun, hcount, hcapacity, hsize, helem⟩ := h.removeAt hget hshifts.1
      have hmoved := (h.moved_iff hget helem hshifts.1).2 hshifts
      have hlength : (elems.eraseIdx i).length ≤ elems.length := List.length_eraseIdx_le ..
      have hle := h.le
      have hfits : 8 * (elems.eraseIdx i).length ≤ list'.array.size := by omega
      rw [hrun]
      exact ⟨list', rfl, hcount, hcapacity, hsize, hlength.trans hle, h.pos, hfits, hmoved⟩
  | getAt index =>
    rw [ilArrayListRun, h.getAt]
    exact ⟨list, rfl, h⟩
  | find data value =>
    have hfound : ∀ i, elems.idxOf? data = some i → i < elems.length := by
      intro i hidx
      have := List.idxOf?_eq_some_iff.1 hidx
      grind
    obtain ⟨list', hrun, h'⟩ := h.setFound (σ := σ) value hfound
    rw [ilArrayListRun, h.find]
    exact ⟨list', hrun, h'⟩
  | reverseFind data value =>
    obtain ⟨list', hrun, h'⟩ :=
      h.setFound (σ := σ) value (fun i (hi : lastIdxOf? data elems = some i) => lastIdxOf?_lt hi)
    rw [ilArrayListRun, h.reverseFind]
    exact ⟨list', hrun, h'⟩
  | walk callback state =>
    obtain ⟨list', hrun, h'⟩ := h.walk callback state
    rw [ilArrayListRun, hrun]
    exact ⟨list', rfl, h'⟩

theorem Inv.run_of_not_meets (h : Inv capacity list elems) (op : ListOp σ)
    (hmeets : ¬ arrayMeets capacity elems op) (list' : ILArrayList)
    (hrun : ilArrayListRun garbage list op = some (list', (op.apply elems).2)) :
    ¬ list'.Is (op.apply elems).1 := by
  cases op with
  | append data =>
    rw [ilArrayListRun] at hrun
    rw [h.append_none hmeets] at hrun
    cases hrun
  | remove data =>
    rw [ilArrayListRun] at hrun
    cases hremove : ilArrayListRemove list data with
    | none =>
      rw [hremove] at hrun
      cases hrun
    | some result =>
      rw [hremove] at hrun
      have heq := (Prod.mk.inj (Option.some.inj hrun)).1
      rw [← heq]
      exact h.remove_wrong data hremove
  | removeAt index =>
    intro his
    apply hmeets
    intro i removed hidx hget
    obtain ⟨_, rfl⟩ := idxAt?_eq_some hidx
    rw [ilArrayListRun] at hrun
    rw [ListOp.apply, hidx] at his
    by_cases hlen : (elems.drop (i + 1)).length ≤ 8
    · obtain ⟨list'', hremove, hcount, _, _, helem⟩ := h.removeAt hget hlen
      rw [hremove] at hrun
      have heq := (Prod.mk.inj (Option.some.inj hrun)).1
      dsimp only at heq
      subst heq
      exact (h.moved_iff hget helem hlen).1 ((contents_eq_iff hcount).1 his.2)
    · rw [h.removeAt_none hget hlen] at hrun
      cases hrun
  | getAt index => exact absurd trivial hmeets
  | find data value => exact absurd trivial hmeets
  | reverseFind data value => exact absurd trivial hmeets
  | walk callback state => exact absurd trivial hmeets

end ILArrayList

end Pnet.Support
