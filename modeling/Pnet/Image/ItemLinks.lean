import Pnet.Image.Item

/-! Who is linked to whom, without records: each item has the item that it is linked to
and a list of slots, each free or with an item that is linked to it. -/
namespace Pnet.Image

variable {I A : Type}

structure ItemLinks (I A : Type) where
  forward : Option I
  slots : List (Option I)
  attrs : List A

abbrev LinkTable (I A : Type) := I → ItemLinks I A

variable [DecidableEq I]

/-- The slots after an item has given its slot back. -/
def clearSlot (item : I) : List (Option I) → List (Option I)
  | [] => []
  | slot :: slots => if slot = some item then none :: slots else slot :: clearSlot item slots

/-- The slots after an item has taken the first free one. -/
def takeSlot (item : I) : List (Option I) → List (Option I)
  | [] => [some item]
  | none :: slots => some item :: slots
  | some other :: slots => some other :: takeSlot item slots

namespace LinkTable

variable (t : LinkTable I A)

def setForward (item : I) (forward : Option I) : LinkTable I A :=
  Function.update t item { t item with forward := forward }

def setSlots (item : I) (slots : List (Option I)) : LinkTable I A :=
  Function.update t item { t item with slots := slots }

def addAttr (item : I) (attr : A) : LinkTable I A :=
  Function.update t item { t item with attrs := (t item).attrs ++ [attr] }

/-- Give back the slot that `item` has where it is linked to. -/
def detach (item : I) : LinkTable I A :=
  match (t item).forward with
  | none => t
  | some target => t.setSlots target (clearSlot item (t target).slots)

def link (item1 item2 : I) : LinkTable I A :=
  if item1 = item2 then t
  else
    let t := (t.detach item1).setForward item1 (some item2)
    t.setSlots item2 (takeSlot item1 (t item2).slots)

/-- The items in the slots of `item` are no longer linked to it. -/
def release (item : I) : LinkTable I A := fun i =>
  if i = item then { t i with slots := (t i).slots.map fun _ => none }
  else if some i ∈ (t item).slots then { t i with forward := none }
  else t i

def unlink (item : I) : LinkTable I A :=
  ((t.detach item).setForward item none).release item

/-- An item is in the slots of the item that it is linked to, once, and in no others. -/
def Consistent : Prop :=
  (∀ a b, (t b).slots.count (some a) = if (t a).forward = some b then 1 else 0) ∧
    ∀ a, (t a).forward ≠ some a

variable {t}

@[simp] theorem forward_setForward (item i : I) (forward : Option I) :
    (t.setForward item forward i).forward = if i = item then forward else (t i).forward := by
  unfold setForward
  by_cases hi : i = item
  · subst hi
    simp
  · simp [hi]

@[simp] theorem slots_setForward (item i : I) (forward : Option I) :
    (t.setForward item forward i).slots = (t i).slots := by
  unfold setForward
  by_cases hi : i = item
  · subst hi
    simp
  · simp [hi]

@[simp] theorem attrs_setForward (item i : I) (forward : Option I) :
    (t.setForward item forward i).attrs = (t i).attrs := by
  unfold setForward
  by_cases hi : i = item
  · subst hi
    simp
  · simp [hi]

@[simp] theorem slots_setSlots (item i : I) (slots : List (Option I)) :
    (t.setSlots item slots i).slots = if i = item then slots else (t i).slots := by
  unfold setSlots
  by_cases hi : i = item
  · subst hi
    simp
  · simp [hi]

@[simp] theorem forward_setSlots (item i : I) (slots : List (Option I)) :
    (t.setSlots item slots i).forward = (t i).forward := by
  unfold setSlots
  by_cases hi : i = item
  · subst hi
    simp
  · simp [hi]

@[simp] theorem attrs_setSlots (item i : I) (slots : List (Option I)) :
    (t.setSlots item slots i).attrs = (t i).attrs := by
  unfold setSlots
  by_cases hi : i = item
  · subst hi
    simp
  · simp [hi]

@[simp] theorem forward_addAttr (item i : I) (attr : A) :
    (t.addAttr item attr i).forward = (t i).forward := by
  unfold addAttr
  by_cases hi : i = item
  · subst hi
    simp
  · simp [hi]

@[simp] theorem slots_addAttr (item i : I) (attr : A) :
    (t.addAttr item attr i).slots = (t i).slots := by
  unfold addAttr
  by_cases hi : i = item
  · subst hi
    simp
  · simp [hi]

@[simp] theorem forward_detach (item i : I) : (t.detach item i).forward = (t i).forward := by
  unfold detach
  cases (t item).forward with
  | none => rfl
  | some target => simp

@[simp] theorem attrs_detach (item i : I) : (t.detach item i).attrs = (t i).attrs := by
  unfold detach
  cases (t item).forward with
  | none => rfl
  | some target => simp

@[simp] theorem attrs_link (item1 item2 i : I) : (t.link item1 item2 i).attrs = (t i).attrs := by
  unfold link
  by_cases heq : item1 = item2
  · rw [if_pos heq]
  · simp [heq]

@[simp] theorem attrs_release (item i : I) : (t.release item i).attrs = (t i).attrs := by
  unfold release
  split_ifs <;> rfl

@[simp] theorem attrs_unlink (item i : I) : (t.unlink item i).attrs = (t i).attrs := by
  simp [unlink]

/-! ### Slots -/

theorem count_clearSlot (item : I) (slots : List (Option I)) (a : I) :
    (clearSlot item slots).count (some a) =
      if a = item then slots.count (some a) - 1 else slots.count (some a) := by
  induction slots with
  | nil => simp [clearSlot]
  | cons slot slots ih =>
    unfold clearSlot
    by_cases hslot : slot = some item
    · subst hslot
      by_cases ha : a = item
      · simp [ha]
      · simp [ha, Ne.symm ha]
    · rw [if_neg hslot, List.count_cons, ih, List.count_cons]
      by_cases ha : a = item
      · subst ha
        simp [hslot]
      · simp [ha]

theorem count_takeSlot (item : I) (slots : List (Option I)) (a : I) :
    (takeSlot item slots).count (some a) =
      slots.count (some a) + if a = item then 1 else 0 := by
  induction slots with
  | nil =>
    by_cases ha : a = item
    · simp [takeSlot, ha]
    · simp [takeSlot, ha, Ne.symm ha]
  | cons slot slots ih =>
    cases slot with
    | none =>
      by_cases ha : a = item
      · simp [takeSlot, ha]
      · simp [takeSlot, ha, Ne.symm ha]
    | some other =>
      rw [takeSlot, List.count_cons, List.count_cons, ih]
      omega

theorem mem_slots_iff (h : t.Consistent) (a b : I) :
    some a ∈ (t b).slots ↔ (t a).forward = some b := by
  have hcount := h.1 a b
  rw [← List.count_pos_iff, hcount]
  split_ifs with hforward <;> simp [hforward]

/-! ### Each operation keeps the links consistent -/

/-- After `detach` an item is in no slot at all; for the others nothing has changed. -/
theorem count_detach (h : t.Consistent) (item a b : I) :
    (t.detach item b).slots.count (some a) =
      if a ≠ item ∧ (t a).forward = some b then 1 else 0 := by
  have hcount := h.1 a b
  unfold detach
  cases hforward : (t item).forward with
  | none =>
    by_cases ha : a = item
    · subst ha
      simp [hcount, hforward]
    · simp [hcount, ha]
  | some target =>
    rw [slots_setSlots]
    by_cases hb : b = target
    · subst hb
      rw [if_pos rfl, count_clearSlot, hcount]
      by_cases ha : a = item
      · subst ha
        simp [hforward]
      · simp [ha]
    · rw [if_neg hb, hcount]
      by_cases ha : a = item
      · subst ha
        simp [hforward, Ne.symm hb]
      · simp [ha]

theorem Consistent.link (h : t.Consistent) (item1 item2 : I) : (t.link item1 item2).Consistent := by
  unfold LinkTable.link
  by_cases heq : item1 = item2
  · rw [if_pos heq]
    exact h
  · rw [if_neg heq]
    constructor
    · intro a b
      have hdetach := count_detach h item1 a b
      by_cases hb : b = item2
      · subst hb
        by_cases ha : a = item1
        · subst ha
          simp [count_takeSlot, hdetach]
        · simp [count_takeSlot, hdetach, ha]
      · by_cases ha : a = item1
        · subst ha
          simp [hdetach, hb, Ne.symm hb]
        · simp [hdetach, ha, hb]
    · intro a
      by_cases ha : a = item1
      · subst ha
        simpa using Ne.symm heq
      · simpa [ha] using h.2 a

theorem Consistent.unlink (h : t.Consistent) (item : I) : (t.unlink item).Consistent := by
  have hself := h.2 item
  have hmem (a : I) : some a ∈ (t.detach item item).slots ↔ a ≠ item ∧ (t a).forward = some item := by
    rw [← List.count_pos_iff, count_detach h]
    split_ifs with hlinked <;> simp [hlinked]
  constructor
  · intro a b
    have hdetach := count_detach h item a b
    unfold LinkTable.unlink release
    by_cases hb : b = item
    · subst hb
      by_cases ha : a = b
      · subst ha
        simp [List.count_replicate]
      · by_cases hlinked : (t a).forward = some b
        · simp [hmem, ha, hlinked, List.count_replicate]
        · simp [hmem, ha, hlinked, List.count_replicate]
    · by_cases ha : a = item
      · subst ha
        simp [hmem, hb, apply_ite ItemLinks.slots, hdetach]
      · by_cases hlinked : (t a).forward = some item
        · simp [hmem, hb, ha, hlinked, apply_ite ItemLinks.slots, hdetach, Ne.symm hb]
        · simp [hmem, hb, ha, hlinked, apply_ite ItemLinks.slots, hdetach]
  · intro a
    unfold LinkTable.unlink release
    by_cases ha : a = item
    · subst ha
      simp
    · by_cases hlinked : (t a).forward = some item
      · simp [hmem, ha, hlinked]
      · simpa [hmem, ha, hlinked] using h.2 a

theorem Consistent.addAttr (h : t.Consistent) (item : I) (attr : A) :
    (t.addAttr item attr).Consistent := by
  simpa [Consistent] using h

/-- Only finitely many items are linked. -/
def Finite (t : LinkTable I A) : Prop := ∃ touched : Finset I, ∀ i, (t i).forward ≠ none → i ∈ touched

theorem Finite.link (h : t.Finite) (item1 item2 : I) : (t.link item1 item2).Finite := by
  obtain ⟨touched, htouched⟩ := h
  unfold LinkTable.link
  by_cases heq : item1 = item2
  · rw [if_pos heq]
    exact ⟨touched, htouched⟩
  · rw [if_neg heq]
    refine ⟨insert item1 touched, fun i hi => ?_⟩
    by_cases hi1 : i = item1
    · simp [hi1]
    · simp only [forward_setSlots, forward_setForward, if_neg hi1, forward_detach] at hi
      exact Finset.mem_insert_of_mem (htouched i hi)

theorem Finite.unlink (h : t.Finite) (item : I) : (t.unlink item).Finite := by
  obtain ⟨touched, htouched⟩ := h
  refine ⟨touched, fun i hi => htouched i fun hnone => hi ?_⟩
  unfold LinkTable.unlink release
  by_cases hitem : i = item
  · simp [hitem]
  · split_ifs <;> simp [hitem, hnone]

end LinkTable

/-! ### Runs -/

def ItemOp.track (t : LinkTable I A) : ItemOp I A → LinkTable I A
  | .link item1 item2 => t.link item1 item2
  | .unlink item => t.unlink item
  | .addAttribute item attr => t.addAttr item attr

def trackItems (ops : List (ItemOp I A)) : LinkTable I A :=
  ops.foldl ItemOp.track fun _ => ⟨none, [], []⟩

/-- The attributes that a run adds to an item. -/
def addedTo (item : I) (ops : List (ItemOp I A)) : List A :=
  ops.filterMap fun
    | .addAttribute item' attr => if item' = item then some attr else none
    | _ => none

omit [DecidableEq I] in
/-- All the attributes that a run adds. -/
def added (ops : List (ItemOp I A)) : List A :=
  ops.filterMap fun
    | .addAttribute _ attr => some attr
    | _ => none

/-- Every item that is unlinked has no free slot at that time. -/
def UnlinksFull (ops : List (ItemOp I A)) : Prop :=
  ∀ pre item post, ops = pre ++ .unlink item :: post → none ∉ (trackItems pre item).slots

theorem trackItems_concat (ops : List (ItemOp I A)) (op : ItemOp I A) :
    trackItems (ops ++ [op]) = op.track (trackItems ops) := by
  simp [trackItems]

theorem consistent_trackItems (ops : List (ItemOp I A)) : (trackItems ops).Consistent := by
  induction ops using List.reverseRecOn with
  | nil => exact ⟨fun a b => rfl, fun a => (Option.some_ne_none a).symm⟩
  | append_singleton ops op ih =>
    rw [trackItems_concat]
    cases op with
    | link item1 item2 => exact ih.link item1 item2
    | unlink item => exact ih.unlink item
    | addAttribute item attr => exact ih.addAttr item attr

theorem finite_trackItems (ops : List (ItemOp I A)) : (trackItems ops).Finite := by
  induction ops using List.reverseRecOn with
  | nil => exact ⟨∅, fun i hi => absurd rfl hi⟩
  | append_singleton ops op ih =>
    rw [trackItems_concat]
    cases op with
    | link item1 item2 => exact ih.link item1 item2
    | unlink item => exact ih.unlink item
    | addAttribute item attr => simpa [LinkTable.Finite, ItemOp.track] using ih

theorem attrs_trackItems (ops : List (ItemOp I A)) (i : I) :
    (trackItems ops i).attrs = addedTo i ops := by
  induction ops using List.reverseRecOn with
  | nil => rfl
  | append_singleton ops op ih =>
    rw [trackItems_concat, addedTo, List.filterMap_append, ← addedTo, ← ih]
    cases op with
    | link item1 item2 => simp [ItemOp.track]
    | unlink item => simp [ItemOp.track]
    | addAttribute item attr =>
      by_cases hi : item = i
      · subst hi
        simp [ItemOp.track, LinkTable.addAttr]
      · simp [ItemOp.track, LinkTable.addAttr, hi, Ne.symm hi]

end Pnet.Image
