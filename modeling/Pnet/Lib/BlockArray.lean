import Pnet.Lib.Chain

/-! An array whose items are kept in a chain of nodes, a number of items to a node. -/
namespace Pnet.Lib.BlockArray

variable {T : Type}

/-- What the nodes hold, with one item written over. -/
def setSlot (slot : Nat → Nat → T) (node k : Nat) (x : T) : Nat → Nat → T := fun p j =>
  if p = node ∧ j = k then x else slot p j

/-- The nodes from `head` on hold the array, `w` items each, and nothing behind it. -/
structure Holds (w : Nat) (empty : T) (slot : Nat → Nat → T) (next : Nat → Option Nat) (head : Nat)
    (nodes : List Nat) (array : List T) : Prop where
  chain : Chain next (some head) nodes
  full : nodes.length = max 1 ((array.length + (w - 1)) / w)
  slots : ∀ i node, nodes[i / w]? = some node → slot node (i % w) = array.getD i empty

namespace Holds

variable {w : Nat} {empty : T} {slot slot' : Nat → Nat → T} {next next' : Nat → Option Nat}
  {head : Nat} {nodes : List Nat} {array : List T} {node i : Nat}

/-- Items that fit in one node. -/
theorem singleton (h : next head = none) (hslot : ∀ j, slot head j = array.getD j empty)
    (hw : 0 < w) (hlength : array.length ≤ w) :
    Holds w empty slot next head [head] array where
  chain := .cons (h ▸ .nil)
  full := by
    have hle : (array.length + (w - 1)) / w < 2 := (Nat.div_lt_iff_lt_mul hw).mpr (by omega)
    rw [List.length_singleton]
    omega
  slots i node hnode := by
    have hlt : i / w < 1 := (List.getElem?_eq_some_iff.mp hnode).1
    have hi : i < w := (Nat.div_lt_one_iff hw).mp hlt
    obtain rfl := List.mem_singleton.mp (List.mem_of_getElem? hnode)
    rw [Nat.mod_eq_of_lt hi]
    exact hslot i

theorem cons_eq (h : Holds w empty slot next head nodes array) :
    ∃ cells, nodes = head :: cells ∧ Chain next (next head) cells := by
  cases nodes with
  | nil => exact absurd h.chain.of_nil (Option.some_ne_none head)
  | cons node cells =>
    obtain ⟨heq, hrest⟩ := h.chain.of_cons
    cases heq
    exact ⟨cells, rfl, hrest⟩

/-- The item at a place is in one node only. -/
theorem place_unique (h : Holds w empty slot next head nodes array) {j : Nat}
    (hi : nodes[i / w]? = some node) (hj : nodes[j / w]? = some node) (hmod : i % w = j % w) :
    i = j := by
  have hlt : i / w < nodes.length := (List.getElem?_eq_some_iff.mp hi).1
  have hdiv : i / w = j / w := (List.getElem?_inj hlt h.chain.nodup).mp (hi.trans hj.symm)
  rw [← Nat.div_add_mod i w, ← Nat.div_add_mod j w, hdiv, hmod]

theorem node_of_lt (h : Holds w empty slot next head nodes array) (hw : 0 < w)
    (hi : i < array.length) : ∃ node, nodes[i / w]? = some node := by
  have hlt : i / w < nodes.length := by
    have hle : (i + w) / w ≤ (array.length + (w - 1)) / w := Nat.div_le_div_right (by omega)
    rw [Nat.add_div_right i hw] at hle
    have hfull := h.full
    omega
  exact ⟨nodes[i / w], List.getElem?_eq_getElem hlt⟩

/-- Behind the nodes there are no items. -/
theorem length_le_of_none (h : Holds w empty slot next head nodes array) (hw : 0 < w)
    (hi : nodes[i / w]? = none) : array.length ≤ i := by
  by_contra hlt
  obtain ⟨node, hnode⟩ := h.node_of_lt hw (Nat.lt_of_not_le hlt)
  rw [hi] at hnode
  cases hnode

theorem set (h : Holds w empty slot next head nodes array) (hi : i < array.length)
    (hnode : nodes[i / w]? = some node) (x : T) :
    Holds w empty (setSlot slot node (i % w) x) next head nodes (array.set i x) where
  chain := h.chain
  full := by rw [List.length_set, h.full]
  slots j other hother := by
    unfold setSlot
    split_ifs with hsame
    · obtain ⟨rfl, hmod⟩ := hsame
      obtain rfl := h.place_unique hother hnode hmod
      rw [List.getD_eq_getElem?_getD, List.getElem?_set_self hi, Option.getD_some]
    · have hne : i ≠ j := by
        rintro rfl
        rw [hnode] at hother
        cases hother
        exact hsame ⟨rfl, rfl⟩
      rw [h.slots j other hother, List.getD_eq_getElem?_getD, List.getD_eq_getElem?_getD,
        List.getElem?_set_ne hne]

/-- Another item in the last node. -/
theorem push (h : Holds w empty slot next head nodes array)
    (hnode : nodes[array.length / w]? = some node) (hw : 0 < w) (x : T) :
    Holds w empty (setSlot slot node (array.length % w) x) next head nodes (array ++ [x]) where
  chain := h.chain
  full := by
    have hlt : array.length / w < nodes.length := (List.getElem?_eq_some_iff.mp hnode).1
    have hfull := h.full
    have hsum : array.length + 1 + (w - 1) = array.length + w := by omega
    have hle : (array.length + (w - 1)) / w ≤ (array.length + w) / w :=
      Nat.div_le_div_right (by omega)
    rw [List.length_append, List.length_singleton, hsum]
    rw [Nat.add_div_right _ hw] at hle ⊢
    omega
  slots j other hother := by
    unfold setSlot
    split_ifs with hsame
    · obtain ⟨rfl, hmod⟩ := hsame
      obtain rfl := h.place_unique hother hnode hmod
      rw [List.getD_eq_getElem?_getD, List.getElem?_append_right (Nat.le_refl _), Nat.sub_self]
      rfl
    · have hne : j ≠ array.length := by
        rintro rfl
        rw [hnode] at hother
        cases hother
        exact hsame ⟨rfl, rfl⟩
      rw [h.slots j other hother, List.getD_eq_getElem?_getD, List.getD_eq_getElem?_getD]
      rcases Nat.lt_or_gt_of_ne hne with hlt | hgt
      · rw [List.getElem?_append_left hlt]
      · rw [List.getElem?_eq_none hgt.le, List.getElem?_eq_none]
        rw [List.length_append, List.length_singleton]
        exact hgt

/-- When the item behind the last one has no node, the nodes are full. -/
theorem length_eq_of_none (h : Holds w empty slot next head nodes array) (hw : 0 < w)
    (hnode : nodes[array.length / w]? = none) : array.length = w * nodes.length := by
  have hle : nodes.length ≤ array.length / w := List.getElem?_eq_none_iff.mp hnode
  have hfull := h.full
  have hceil : array.length / w ≤ (array.length + (w - 1)) / w := Nat.div_le_div_right (by omega)
  have hdiv := Nat.div_add_mod array.length w
  have hsame : (array.length + (w - 1)) / w = array.length / w := by
    have hpos : 1 ≤ nodes.length := by omega
    omega
  have hmod : array.length % w = 0 := by
    by_contra hne
    have hlt := Nat.mod_lt array.length hw
    have hge : (array.length / w + 1) * w ≤ array.length + (w - 1) := by
      rw [Nat.succ_mul, Nat.mul_comm]
      omega
    have hmore := (Nat.le_div_iff_mul_le hw).mpr hge
    omega
  have heq : array.length / w = nodes.length := by omega
  rw [hmod, heq] at hdiv
  exact hdiv.symm

/-- Another item in a node of its own. -/
theorem push_node {pre : List Nat} {last new : Nat}
    (h : Holds w empty slot next head (pre ++ [last]) array) (hw : 0 < w)
    (hnode : (pre ++ [last])[array.length / w]? = none) (hnew : new ∉ pre ++ [last]) (x : T)
    (hslot : ∀ node ∈ pre ++ [last], ∀ j, slot' node j = slot node j)
    (hslotNew : ∀ j, slot' new j = if j = 0 then x else empty)
    (hnext : next' = Function.update (Function.update next new none) last (some new)) :
    Holds w empty slot' next' head (pre ++ [last, new]) (array ++ [x]) where
  chain := hnext ▸ h.chain.append_cell hnew
  full := by
    have hlength := h.length_eq_of_none hw hnode
    have hsum : array.length + 1 + (w - 1) = w * ((pre ++ [last]).length + 1) := by
      rw [Nat.mul_succ, ← hlength]
      omega
    have hcells : (pre ++ [last, new]).length = (pre ++ [last]).length + 1 := by
      rw [List.length_append, List.length_append]
      rfl
    rw [hcells, @List.length_append _ array, List.length_singleton, hsum,
      Nat.mul_div_cancel_left _ hw]
    omega
  slots j other hother := by
    have hlength := h.length_eq_of_none hw hnode
    have hsplit : pre ++ [last, new] = (pre ++ [last]) ++ [new] := by
      rw [List.append_assoc]
      rfl
    rw [hsplit] at hother
    by_cases hlt : j / w < (pre ++ [last]).length
    · rw [List.getElem?_append_left hlt] at hother
      have hj : j < array.length := by
        rw [hlength, Nat.mul_comm]
        exact (Nat.div_lt_iff_lt_mul hw).mp hlt
      rw [hslot other (List.mem_of_getElem? hother), h.slots j other hother,
        List.getD_eq_getElem?_getD, List.getD_eq_getElem?_getD, List.getElem?_append_left hj]
    · have hge : array.length ≤ j := by
        rw [hlength, Nat.mul_comm]
        exact (Nat.le_div_iff_mul_le hw).mp (Nat.le_of_not_lt hlt)
      rw [List.getElem?_append_right (Nat.le_of_not_lt hlt), List.getElem?_singleton] at hother
      split_ifs at hother with hzero
      cases hother
      have hdiv := Nat.div_add_mod j w
      have heq : j / w = (pre ++ [last]).length := by omega
      rw [heq, ← hlength] at hdiv
      rw [hslotNew, List.getD_eq_getElem?_getD, List.getElem?_append_right hge,
        List.getElem?_singleton]
      by_cases hfirst : j % w = 0
      · rw [if_pos hfirst, if_pos (by omega)]
        rfl
      · rw [if_neg hfirst, if_neg (by omega)]
        rfl

end Holds

section Run

variable {S A Op : Type} {reads : S → A → Prop} {run : Op → S → Option (Bool × S)}
  {effect : Op → A → A} {mayRefuse : Op → S → Prop} {fits : A → Prop}

/-- One after the other, as long as the value fits, the operations have their effects on it, or
refuse and change nothing. -/
def BehavesAs (reads : S → A → Prop) (run : Op → S → Option (Bool × S)) (effect : Op → A → A)
    (mayRefuse : Op → S → Prop) (fits : A → Prop) : S → A → List Op → Prop
  | s, a, [] => reads s a
  | s, a, op :: ops => reads s a ∧ (fits (effect op a) → ∃ ok s', run op s = some (ok, s') ∧
      (ok = false → mayRefuse op s ∧ s' = s) ∧
      BehavesAs reads run effect mayRefuse fits s' (if ok then effect op a else a) ops)

/-- It is enough that each operation keeps an invariant from which the value is read. -/
theorem behavesAs {inv : S → A → Prop} (hreads : ∀ s a, inv s a → reads s a)
    (hstep : ∀ op s a, inv s a → fits (effect op a) → ∃ ok s', run op s = some (ok, s') ∧
      (ok = false → mayRefuse op s ∧ s' = s) ∧ inv s' (if ok then effect op a else a))
    (ops : List Op) {s : S} {a : A} (h : inv s a) :
    BehavesAs reads run effect mayRefuse fits s a ops := by
  induction ops generalizing s a with
  | nil => exact hreads s a h
  | cons op ops ih =>
    unfold BehavesAs
    refine ⟨hreads s a h, fun hfits => ?_⟩
    obtain ⟨ok, s', hrun, hrefused, hinv⟩ := hstep op s a h hfits
    exact ⟨ok, s', hrun, hrefused, ih hinv⟩

end Run

end Pnet.Lib.BlockArray
