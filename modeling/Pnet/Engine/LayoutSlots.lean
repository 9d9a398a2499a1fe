import Pnet.Engine.Layout
import Pnet.Lib.Loop

/-! The vtable as a function of the metadata alone: the slot of each virtual method of
a class and its ancestors, and which method each slot holds. -/
namespace Pnet.Engine
open Pnet.Lib Pnet.Image

variable (md : Metadata)

def virtualMethods (info : ClassId) : List MemberId :=
  (md.methods info).filter fun m => (md.method m).isVirtual

/-- The methods in a class's vtable, and the slots of the virtual methods of the class
and its ancestors. -/
structure SlotTable where
  vtable : List (Option MemberId)
  index : MemberId → Nat

def SlotTable.empty : SlotTable := ⟨[], fun _ => 0⟩

/-- The slot of a method, and the next free one. -/
def slotFor (info : ClassId) (inherited : MemberId → Nat) (m : MemberId) (next : Nat) :
    Option (Nat × Nat) :=
  if (md.method m).newSlot then some (next, next + 1)
  else match virtualAncestor md info m with
    | some (some ancestor) => some (inherited ancestor, next)
    | some none => some (next, next + 1)
    | none => none

def assignSlots (info : ClassId) (inherited : MemberId → Nat) :
    List MemberId → Nat × (MemberId → Nat) → Option (Nat × (MemberId → Nat))
  | [], slots => some slots
  | m :: methods, slots =>
    match slotFor md info inherited m slots.1 with
    | some (slot, next) =>
      assignSlots info inherited methods (next, Function.update slots.2 m slot)
    | none => none

def parentSlots (classSlots : ClassId → Option SlotTable) (info : ClassId) : Option SlotTable :=
  match md.parent info with
  | some parent => classSlots parent
  | none => some .empty

/-- The slots of a class whose parent's are `parent`. -/
def extendSlots (info : ClassId) (parent : SlotTable) : Option SlotTable :=
  match assignSlots md info parent.index (virtualMethods md info)
      (parent.vtable.length, parent.index) with
  | some (size, index) =>
    if 65535 < size then none
    else some ⟨overrideSlots md index (md.methods info)
      (copyVtable parent.vtable parent.vtable.length size), index⟩
  | none => none

def classSlotsStep (classSlots : ClassId → Option SlotTable) (info : ClassId) :
    Option SlotTable :=
  match parentSlots md classSlots info with
  | some parent => extendSlots md info parent
  | none => none

def classSlots : Nat → ClassId → Option SlotTable
  | 0, _ => none
  | fuel + 1, info => classSlotsStep md (classSlots fuel) info

def ClassHasSlots (info : ClassId) (slots : SlotTable) : Prop :=
  Answers (classSlots md) info slots

def ParentHasSlots (info : ClassId) (slots : SlotTable) : Prop :=
  match md.parent info with
  | some parent => ClassHasSlots md parent slots
  | none => slots = .empty

variable {md}

theorem parentSlots_mono {classSlots classSlots' : ClassId → Option SlotTable}
    (h : Extends classSlots classSlots') :
    Extends (parentSlots md classSlots) (parentSlots md classSlots') := by
  intro info slots hslots
  unfold parentSlots at *
  cases hparent : md.parent info with
  | none =>
    rw [hparent] at hslots
    exact hslots
  | some parent =>
    rw [hparent] at hslots
    exact h _ _ hslots

theorem classSlots_fueled : Fueled (classSlots md) := by
  intro fuel
  induction fuel with
  | zero =>
    intro info slots h
    cases h
  | succ fuel ih =>
    intro info slots h
    unfold classSlots classSlotsStep at h ⊢
    split at h
    · rename_i parent hparent
      rw [parentSlots_mono ih _ _ hparent]
      exact h
    · cases h

theorem ClassHasSlots.unique {info : ClassId} {slots slots' : SlotTable}
    (h : ClassHasSlots md info slots) (h' : ClassHasSlots md info slots') : slots = slots' :=
  Answers.unique classSlots_fueled h h'

theorem ParentHasSlots.unique {info : ClassId} {slots slots' : SlotTable}
    (h : ParentHasSlots md info slots) (h' : ParentHasSlots md info slots') :
    slots = slots' := by
  unfold ParentHasSlots at *
  cases hparent : md.parent info with
  | none =>
    rw [hparent] at h h'
    exact h.trans h'.symm
  | some parent =>
    rw [hparent] at h h'
    exact h.unique h'

theorem parentHasSlots_iff {info : ClassId} {slots : SlotTable} :
    ParentHasSlots md info slots ↔ ∃ fuel, parentSlots md (classSlots md fuel) info = some slots := by
  unfold ParentHasSlots parentSlots ClassHasSlots Answers
  cases md.parent info with
  | none =>
    constructor
    · intro h
      exact ⟨0, congrArg some h.symm⟩
    · rintro ⟨_, h⟩
      exact (Option.some.inj h).symm
  | some parent => exact Iff.rfl

theorem classHasSlots_iff {info : ClassId} {slots : SlotTable} :
    ClassHasSlots md info slots ↔
      ∃ parent, ParentHasSlots md info parent ∧ extendSlots md info parent = some slots := by
  constructor
  · rintro ⟨fuel, h⟩
    cases fuel with
    | zero => cases h
    | succ fuel =>
      unfold classSlots classSlotsStep at h
      split at h
      · rename_i parent hparent
        exact ⟨parent, parentHasSlots_iff.2 ⟨fuel, hparent⟩, h⟩
      · cases h
  · rintro ⟨parent, hparent, h⟩
    obtain ⟨fuel, hparent⟩ := parentHasSlots_iff.1 hparent
    refine ⟨fuel + 1, ?_⟩
    unfold classSlots classSlotsStep
    rw [hparent]
    exact h

/-! ### One class -/

variable (md) in
theorem virtualMethods_nodup (info : ClassId) : (virtualMethods md info).Nodup := by
  apply List.Nodup.filter
  apply List.Nodup.map _ List.nodup_range
  intro posn posn' h
  exact (MemberId.mk.inj h).2

theorem owner_of_mem_methods {info : ClassId} {m : MemberId} (h : m ∈ md.methods info) :
    m.owner = info := by
  obtain ⟨posn, _, hposn⟩ := List.mem_map.1 h
  rw [← hposn]

theorem owner_of_mem_virtualMethods {info : ClassId} {m : MemberId}
    (h : m ∈ virtualMethods md info) : m.owner = info :=
  owner_of_mem_methods (List.mem_filter.1 h).1

variable {info : ClassId} {inherited : MemberId → Nat}

theorem assignSlots_append {pre post : List MemberId} {slots result : Nat × (MemberId → Nat)}
    (h : assignSlots md info inherited (pre ++ post) slots = some result) :
    ∃ middle, assignSlots md info inherited pre slots = some middle ∧
      assignSlots md info inherited post middle = some result := by
  induction pre generalizing slots with
  | nil => exact ⟨slots, rfl, h⟩
  | cons m pre ih =>
    simp only [List.cons_append, assignSlots] at h ⊢
    split at h
    · exact ih h
    · cases h

theorem assignSlots_cons {m : MemberId} {methods : List MemberId}
    {slots result : Nat × (MemberId → Nat)}
    (h : assignSlots md info inherited (m :: methods) slots = some result) :
    ∃ slot next, slotFor md info inherited m slots.1 = some (slot, next) ∧
      assignSlots md info inherited methods (next, Function.update slots.2 m slot) =
        some result := by
  unfold assignSlots at h
  split at h
  · rename_i slot next hslot
    exact ⟨slot, next, hslot, h⟩
  · cases h

theorem assignSlots_frame {methods : List MemberId} {slots result : Nat × (MemberId → Nat)}
    (h : assignSlots md info inherited methods slots = some result) {m : MemberId}
    (hm : m ∉ methods) : result.2 m = slots.2 m := by
  induction methods generalizing slots with
  | nil =>
    cases h
    rfl
  | cons m' methods ih =>
    obtain ⟨slot, next, _, h⟩ := assignSlots_cons h
    have hne := List.ne_of_not_mem_cons hm
    rw [ih h (List.not_mem_of_not_mem_cons hm)]
    exact Function.update_of_ne hne ..

theorem extendSlots_some {slots parent : SlotTable} (h : extendSlots md info parent = some slots) :
    ∃ size, assignSlots md info parent.index (virtualMethods md info)
        (parent.vtable.length, parent.index) = some (size, slots.index) ∧
      size ≤ 65535 ∧
      slots.vtable = overrideSlots md slots.index (md.methods info)
        (copyVtable parent.vtable parent.vtable.length size) := by
  unfold extendSlots at h
  split at h
  · rename_i size index hassign
    split at h
    · cases h
    · cases h
      exact ⟨size, hassign, by omega, rfl⟩
  · cases h

variable (md) in
/-- The slot the metadata give to a virtual method. The methods after it have no say. -/
def SlotPlaced (m : MemberId) (slot : Nat) : Prop :=
  ∃ parent pre post slots next,
    virtualMethods md m.owner = pre ++ m :: post ∧
    ParentHasSlots md m.owner parent ∧
    assignSlots md m.owner parent.index pre (parent.vtable.length, parent.index) = some slots ∧
    slotFor md m.owner parent.index m slots.1 = some (slot, next)

theorem SlotPlaced.unique {m : MemberId} {slot slot' : Nat} (h : SlotPlaced md m slot)
    (h' : SlotPlaced md m slot') : slot = slot' := by
  obtain ⟨parent, pre, post, slots, next, hsplit, hparent, hslots, hslot⟩ := h
  obtain ⟨parent', pre', post', slots', next', hsplit', hparent', hslots', hslot'⟩ := h'
  have hnodup := virtualMethods_nodup md m.owner
  rw [hsplit] at hnodup hsplit'
  have hnotMem := (List.nodup_cons.1 (List.nodup_middle.1 hnodup)).1
  have hstarts : pre = pre' :=
    ((List.append_cons_inj_of_notMem (fun h => hnotMem (List.mem_append_left _ h))
      (fun h => hnotMem (List.mem_append_right _ h))).1 hsplit').1
  subst hstarts
  cases hparent.unique hparent'
  cases Option.some.inj (hslots.symm.trans hslots')
  cases Option.some.inj (hslot.symm.trans hslot')
  rfl

theorem slotPlaced_of_assignSlots {parent : SlotTable} (hparent : ParentHasSlots md info parent)
    {result : Nat × (MemberId → Nat)}
    (hassign : assignSlots md info parent.index (virtualMethods md info)
      (parent.vtable.length, parent.index) = some result)
    {m : MemberId} (hm : m ∈ virtualMethods md info) : SlotPlaced md m (result.2 m) := by
  obtain ⟨pre, post, hsplit⟩ := List.append_of_mem hm
  have hnodup := virtualMethods_nodup md info
  rw [hsplit] at hassign hnodup
  obtain ⟨middle, hpre, hrest⟩ := assignSlots_append hassign
  obtain ⟨slot, next, hslot, hpost⟩ := assignSlots_cons hrest
  have hnotMem : m ∉ post := fun hmem =>
    (List.nodup_cons.1 (List.nodup_middle.1 hnodup)).1 (List.mem_append_right _ hmem)
  have hindex : result.2 m = slot :=
    (assignSlots_frame hpost hnotMem).trans (Function.update_self ..)
  have howner := owner_of_mem_virtualMethods hm
  rw [hindex]
  refine ⟨parent, pre, post, middle, next, ?_, ?_, ?_, ?_⟩
  all_goals rw [howner]
  all_goals assumption

/-- The table of a class has the slots of its parent's table for the methods that are
not its own. -/
theorem index_eq_parent {slots parent : SlotTable} (h : extendSlots md info parent = some slots)
    {m : MemberId} (hm : m.owner ≠ info) : slots.index m = parent.index m := by
  obtain ⟨size, hassign, _, _⟩ := extendSlots_some h
  exact assignSlots_frame hassign fun hmem => hm (owner_of_mem_virtualMethods hmem)

/-! ### The hierarchy -/

variable (md) in
/-- `ancestor` is `info` or one of the classes above it. -/
def Inherits (info ancestor : ClassId) : Prop :=
  Relation.ReflTransGen (fun info parent => md.parent info = some parent) info ancestor

theorem Inherits.cases {ancestor : ClassId} (h : Inherits md info ancestor) :
    ancestor = info ∨ ∃ parent, md.parent info = some parent ∧ Inherits md parent ancestor := by
  cases Relation.ReflTransGen.cases_head h with
  | inl h => exact .inl h.symm
  | inr h => exact .inr h

theorem Inherits.of_parent {parent ancestor : ClassId} (hparent : md.parent info = some parent)
    (h : Inherits md parent ancestor) : Inherits md info ancestor :=
  .head hparent h

/-- The table of a class has the slots of all virtual methods of its hierarchy. -/
theorem ClassHasSlots.slotPlaced {slots : SlotTable} (h : ClassHasSlots md info slots)
    {ancestor : ClassId} (hinherits : Inherits md info ancestor) {m : MemberId}
    (hm : m ∈ virtualMethods md ancestor) : SlotPlaced md m (slots.index m) := by
  induction hinherits using Relation.ReflTransGen.head_induction_on generalizing slots with
  | refl =>
    obtain ⟨parent, hparent, hextend⟩ := classHasSlots_iff.1 h
    obtain ⟨size, hassign, _, _⟩ := extendSlots_some hextend
    exact slotPlaced_of_assignSlots hparent hassign hm
  | @head info parentId hparentId _ ih =>
    obtain ⟨parent, hparent, hextend⟩ := classHasSlots_iff.1 h
    obtain ⟨size, hassign, _, _⟩ := extendSlots_some hextend
    by_cases howner : m.owner = info
    · have hown : m ∈ virtualMethods md info := by
        rw [← owner_of_mem_virtualMethods hm, howner] at hm
        exact hm
      exact slotPlaced_of_assignSlots hparent hassign hown
    · rw [index_eq_parent hextend howner]
      unfold ParentHasSlots at hparent
      rw [hparentId] at hparent
      exact ih hparent

/-- What `FindVirtualAncestor` finds is a virtual method of the hierarchy. -/
theorem findVirtualAncestor_mem {scope : ClassId} {m ancestor : MemberId} {fuel : Nat}
    {start : ClassId}
    (h : findVirtualAncestor md scope m fuel (some start) = some (some ancestor)) :
    ∃ owner, Inherits md start owner ∧ ancestor ∈ virtualMethods md owner := by
  induction fuel generalizing start with
  | zero => cases h
  | succ fuel ih =>
    unfold findVirtualAncestor at h
    split at h
    · rename_i method hfind
      obtain ⟨accessible, _, haccessible⟩ := Option.map_eq_some_iff.1 h
      split at haccessible
      · cases haccessible
        have hmatch := List.find?_some hfind
        have hmem := List.mem_of_find?_eq_some hfind
        rw [Bool.and_eq_true] at hmatch
        exact ⟨start, .refl, List.mem_filter.2 ⟨hmem, hmatch.1⟩⟩
      · cases haccessible
    · cases hparent : md.parent start with
      | none =>
        rw [hparent] at h
        cases fuel <;> cases h
      | some parent =>
        rw [hparent] at h
        obtain ⟨owner, hinherits, hmem⟩ := ih h
        exact ⟨owner, .of_parent hparent hinherits, hmem⟩

theorem virtualAncestor_mem {m ancestor : MemberId}
    (h : virtualAncestor md info m = some (some ancestor)) :
    ∃ parent owner, md.parent info = some parent ∧ Inherits md parent owner ∧
      ancestor ∈ virtualMethods md owner := by
  unfold virtualAncestor at h
  cases hparent : md.parent info with
  | none =>
    rw [hparent] at h
    cases h
  | some parent =>
    rw [hparent] at h
    obtain ⟨owner, hinherits, hmem⟩ := findVirtualAncestor_mem h
    exact ⟨parent, owner, rfl, hinherits, hmem⟩

end Pnet.Engine
