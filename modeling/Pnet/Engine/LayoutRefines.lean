import Pnet.Engine.LayoutSlots
import Pnet.Engine.LayoutSpec

/-! Whatever was laid out before, and whatever of it was refused, the records of the
classes, the offsets of their fields and the slots of their methods are the ones that
the metadata give. -/
namespace Pnet.Engine
open Pnet.Lib Pnet.Image

section
variable (md : Metadata) (pf : Platform) (s t : LayoutState)

def Written (f : MemberId) : Prop := Placed md pf f (s.offset f, s.nativeOffset f)

def Slotted (m : MemberId) : Prop := SlotPlaced md m (s.index m)

/-- The members of a class and of all classes above it have their values. -/
structure Settled (info : ClassId) : Prop where
  written : ∀ ancestor, Inherits md info ancestor →
    ∀ f ∈ instanceFields md ancestor, Written md pf s f
  slotted : ∀ ancestor, Inherits md info ancestor →
    ∀ m ∈ virtualMethods md ancestor, Slotted md s m

structure SlotsAre (slots : SlotTable) (layout : LayoutInfo) : Prop where
  vtable : layout.vtable = slots.vtable
  vtableSize : layout.vtableSize = slots.vtable.length

structure Refines (info : ClassId) (layout : LayoutInfo) : Prop where
  settled : Settled md pf s info
  laysOut : ClassLaysOut md pf info layout.toInstanceLayout
  slots : ∃ slots, ClassHasSlots md info slots ∧ SlotsAre slots layout

/-- A record that is not in layout is right, and a method has got its new-slot flag
from the metadata or for want of an ancestor. -/
structure Inv : Prop where
  refines : ∀ info p, s.userData info = some p → p.inLayout = false →
    Refines md pf s info p.layout
  newSlot : ∀ m, (md.method m).newSlot = true → s.newSlot m = true
  noAncestor : ∀ m, s.newSlot m = true →
    (md.method m).newSlot = true ∨ virtualAncestor md m.owner m = some none

/-- From `s` to `t` nothing that was settled has changed, and no record but that of
`own`. -/
structure Later (own : Option ClassId) : Prop where
  written : ∀ f, Written md pf s f → Written md pf t f
  slotted : ∀ m, Slotted md s m → Slotted md t m
  records : ∀ info p, own ≠ some info → s.userData info = some p → t.userData info = some p

end

variable {md : Metadata} {pf : Platform} {s t u : LayoutState} {own : Option ClassId}
  {info : ClassId}

/-! ### Going on -/

theorem Later.refl : Later md pf s s own :=
  ⟨fun _ h => h, fun _ h => h, fun _ _ _ h => h⟩

theorem Later.trans (h : Later md pf s t own) (h' : Later md pf t u own) :
    Later md pf s u own :=
  ⟨fun f hf => h'.written f (h.written f hf), fun m hm => h'.slotted m (h.slotted m hm),
    fun info p hne hp => h'.records info p hne (h.records info p hne hp)⟩

theorem Later.weaken (h : Later md pf s t none) : Later md pf s t own :=
  ⟨h.written, h.slotted, fun info p _ => h.records info p nofun⟩

theorem Later.of_new (h : Later md pf s t (some info)) (hnone : s.userData info = none) :
    Later md pf s t none := by
  refine ⟨h.written, h.slotted, fun other p _ hp => h.records other p ?_ hp⟩
  intro heq
  cases heq
  rw [hnone] at hp
  cases hp

theorem Settled.later (h : Settled md pf s info) (hlater : Later md pf s t own) :
    Settled md pf t info :=
  ⟨fun a ha f hf => hlater.written f (h.written a ha f hf),
    fun a ha m hm => hlater.slotted m (h.slotted a ha m hm)⟩

theorem Refines.later {layout : LayoutInfo} (h : Refines md pf s info layout)
    (hlater : Later md pf s t own) : Refines md pf t info layout :=
  ⟨h.settled.later hlater, h.laysOut, h.slots⟩

theorem Refines.clear {other : ClassId} {layout : LayoutInfo}
    (h : Refines md pf s info layout) : Refines md pf (s.clearPrivate other) info layout :=
  ⟨⟨h.settled.written, h.settled.slotted⟩, h.laysOut, h.slots⟩

theorem Refines.unclear {other : ClassId} {layout : LayoutInfo}
    (h : Refines md pf (s.clearPrivate other) info layout) : Refines md pf s info layout :=
  ⟨⟨h.settled.written, h.settled.slotted⟩, h.laysOut, h.slots⟩

theorem Inv.initial : Inv md pf (.initial md) :=
  ⟨nofun, fun _ h => h, fun _ h => .inl h⟩

/-- The invariant after a change of the members alone. -/
theorem Inv.later (h : Inv md pf s) (hlater : Later md pf s t own)
    (hrecords : t.userData = s.userData) (hnewSlot : t.newSlot = s.newSlot) :
    Inv md pf t := by
  refine ⟨fun info p hp hdone => ?_, ?_, ?_⟩
  · rw [hrecords] at hp
    exact (h.refines info p hp hdone).later hlater
  · rw [hnewSlot]
    exact h.newSlot
  · rw [hnewSlot]
    exact h.noAncestor

theorem Later.clear (h : Later md pf s t (some info)) :
    Later md pf s (t.clearPrivate info) (some info) := by
  refine ⟨h.written, h.slotted, fun other p hne hp => ?_⟩
  have hne' : other ≠ info := fun heq => hne (congrArg some heq.symm)
  rw [t.userData_clearPrivate_of_ne hne']
  exact h.records other p hne hp

theorem Inv.clear (h : Inv md pf s) (info : ClassId) : Inv md pf (s.clearPrivate info) := by
  refine ⟨fun other p hp hdone => ?_, h.newSlot, h.noAncestor⟩
  by_cases hother : other = info
  · subst hother
    rw [s.userData_clearPrivate] at hp
    cases hp
  · rw [s.userData_clearPrivate_of_ne hother] at hp
    exact (h.refines other p hp hdone).clear

/-- The invariant with `info` set aside, and what the new record of `info` has. -/
theorem Inv.of_clear (info : ClassId) (h : Inv md pf (s.clearPrivate info))
    (hown : ∀ p, s.userData info = some p → p.inLayout = false → Refines md pf s info p.layout) :
    Inv md pf s := by
  refine ⟨fun other p hp hdone => ?_, h.newSlot, h.noAncestor⟩
  by_cases hother : other = info
  · subst hother
    exact hown p hp hdone
  · rw [← s.userData_clearPrivate_of_ne hother] at hp
    exact (h.refines other p hp hdone).unclear

/-! ### The changes of the state -/

theorem Later.setOffset (s : LayoutState) {f : MemberId} (offsets : ILUInt32 × ILUInt32)
    (h : Placed md pf f offsets ∨ (md.field f).isStatic = true) :
    Later md pf s (s.setOffset f offsets.1 offsets.2) none := by
  refine ⟨fun g hg => ?_, fun _ hm => hm, fun _ _ _ hp => hp⟩
  unfold Written
  by_cases hgf : g = f
  · subst hgf
    rw [s.offset_setOffset, s.nativeOffset_setOffset]
    cases h with
    | inl h => exact h
    | inr h =>
      obtain ⟨_, _, pre, post, _, _, hsplit, _⟩ := hg
      have hmem : g ∈ instanceFields md g.owner :=
        hsplit ▸ List.mem_append_right _ (List.mem_cons_self ..)
      have hinstance := (List.mem_filter.1 hmem).2
      rw [h] at hinstance
      cases hinstance
  · rw [s.offset_setOffset_of_ne _ _ hgf, s.nativeOffset_setOffset_of_ne _ _ hgf]
    exact hg

theorem written_setOffset {f : MemberId} {offsets : ILUInt32 × ILUInt32}
    (h : Placed md pf f offsets) : Written md pf (s.setOffset f offsets.1 offsets.2) f := by
  unfold Written
  rw [s.offset_setOffset, s.nativeOffset_setOffset]
  exact h

theorem slotted_setIndex {m : MemberId} {index : Nat} (h : SlotPlaced md m index) :
    Slotted md (s.setIndex m index) m := by
  unfold Slotted
  rw [s.index_setIndex]
  exact h

theorem Later.setIndex {m : MemberId} {index : Nat} (h : SlotPlaced md m index) :
    Later md pf s (s.setIndex m index) none := by
  refine ⟨fun _ hf => hf, fun m' hm' => ?_, fun _ _ _ hp => hp⟩
  by_cases hmm : m' = m
  · subst hmm
    exact slotted_setIndex h
  · unfold Slotted
    rw [s.index_setIndex_of_ne _ hmm]
    exact hm'

theorem Later.modifyPrivate (info : ClassId) (f : ILClassPrivate → ILClassPrivate) :
    Later md pf s (s.modifyPrivate info f) (some info) := by
  refine ⟨fun _ hf => hf, fun _ hm => hm, fun other p hne hp => ?_⟩
  rw [s.userData_modifyPrivate_of_ne f fun heq => hne (congrArg some heq.symm)]
  exact hp

theorem clear_modifyPrivate (f : ILClassPrivate → ILClassPrivate) :
    (s.modifyPrivate info f).clearPrivate info = s.clearPrivate info := by
  unfold LayoutState.modifyPrivate LayoutState.clearPrivate
  simp only [Function.update_idem]

/-! ### What is promised of the two functions -/

section
variable (md pf)

/-- How a call may be refused: everything settled stays so. -/
def Refused (s : LayoutState) (e : LayoutExit) (t : LayoutState) : Prop :=
  e = .zero → Later md pf s t none ∧ Inv md pf t

/-- The same inside the call for `info`, whose record will be taken away. -/
def RefusedIn (info : ClassId) (s : LayoutState) (e : LayoutExit) (t : LayoutState) : Prop :=
  e = .zero → Later md pf s t (some info) ∧ Inv md pf (t.clearPrivate info)

/-- The record of a class that can be used, as its layout is returned. -/
def HasRecord (t : LayoutState) (info : ClassId) (layout : LayoutInfo) : Prop :=
  ∃ p, t.userData info = some p ∧ p.inLayout = false ∧ p.layout = layout

def ClassSound (layoutClass : ClassId → LayoutM LayoutInfo) : Prop :=
  ∀ info s, Inv md pf s → wp (layoutClass info) s
    (fun layout t => Later md pf s t none ∧ Inv md pf t ∧ HasRecord t info layout)
    (Refused md pf s)

def TypeSound (layoutType : ILType → LayoutM LayoutInfo) : Prop :=
  ∀ type s, Inv md pf s → wp (layoutType type) s
    (fun layout t => Later md pf s t none ∧ Inv md pf t ∧
      TypeLaysOut md pf type layout.toInstanceLayout)
    (Refused md pf s)

end

theorem Refused.inside {e : LayoutExit} (h : Refused md pf s e t) : RefusedIn md pf info s e t :=
  fun he => ⟨(h he).1.weaken, (h he).2.clear info⟩

theorem Refused.after {e : LayoutExit} (hlater : Later md pf s t none)
    (h : Refused md pf t e u) : Refused md pf s e u :=
  fun he => ⟨hlater.trans (h he).1, (h he).2⟩

theorem RefusedIn.after {e : LayoutExit} (hlater : Later md pf s t (some info))
    (h : RefusedIn md pf info t e u) : RefusedIn md pf info s e u :=
  fun he => ⟨hlater.trans (h he).1, (h he).2⟩

/-! ### Instance fields -/

theorem placeFields_append (options : LayoutOptions) {pre : List MemberId}
    {layouts : List InstanceLayout} (hlength : pre.length = layouts.length) (f : MemberId)
    (layout : InstanceLayout) (placing : Placing) :
    placeFields md options (pre ++ [f]) (layouts ++ [layout]) placing =
      (placeInstanceField md options f layout
        (placeFields md options pre layouts placing)).2 := by
  induction pre generalizing layouts placing with
  | nil =>
    cases layouts with
    | nil => rfl
    | cons => cases hlength
  | cons g pre ih =>
    cases layouts with
    | nil => cases hlength
    | cons first layouts => exact ih (Nat.succ.inj hlength) _

variable {layoutClass : ClassId → LayoutM LayoutInfo} {layoutType : ILType → LayoutM LayoutInfo}

theorem layoutInstanceFields_sound (htype : TypeSound md pf layoutType)
    {options : LayoutOptions} (hoptions : layoutOptions md info = some options)
    {parent : InstanceLayout} (hparent : ParentLaysOut md pf info parent)
    (fields pre : List MemberId)
    (hsplit : instanceFields md info = pre ++ fields.filter fun f => !(md.field f).isStatic)
    (layouts : List InstanceLayout) (hpre : FieldsLayOut md pf pre layouts)
    (hinv : Inv md pf s) :
    wp (layoutInstanceFields md layoutType options fields
        (placeFields md options pre layouts { layout := parent })) s
      (fun placing t => Later md pf s t none ∧ Inv md pf t ∧
        (∃ all, FieldsLayOut md pf (instanceFields md info) all ∧
          placing = placeFields md options (instanceFields md info) all { layout := parent }) ∧
        ∀ f ∈ fields.filter fun f => !(md.field f).isStatic, Written md pf t f)
      (Refused md pf s) := by
  induction fields generalizing s pre layouts with
  | nil =>
    rw [List.filter_nil, List.append_nil] at hsplit
    subst hsplit
    exact ⟨.refl, hinv, ⟨layouts, hpre, rfl⟩, nofun⟩
  | cons f fields ih =>
    unfold layoutInstanceFields
    apply wp_ite
    · intro hstatic
      have hfilter : (f :: fields).filter (fun f => !(md.field f).isStatic) =
          fields.filter fun f => !(md.field f).isStatic :=
        List.filter_cons_of_neg (by simp [hstatic])
      rw [hfilter] at hsplit ⊢
      exact ih pre hsplit layouts hpre hinv
    · intro hstatic
      have hfilter : (f :: fields).filter (fun f => !(md.field f).isStatic) =
          f :: fields.filter fun f => !(md.field f).isStatic :=
        List.filter_cons_of_pos (by simpa using hstatic)
      rw [hfilter] at hsplit ⊢
      rw [wp_bind]
      refine wp_mono (htype (md.field f).signature s hinv) ?_ (fun _ _ h => h)
      rintro layout t ⟨hlater, hinv', hlayout⟩
      rw [wp_bind, wp_modify]
      have howner : f.owner = info := by
        have hmem : f ∈ instanceFields md info := by
          rw [hsplit]
          exact List.mem_append_right _ (List.mem_cons_self ..)
        exact owner_of_mem_instanceFields hmem
      have hplaced : Placed md pf f (placeInstanceField md options f layout.toInstanceLayout
          (placeFields md options pre layouts { layout := parent })).1 := by
        refine ⟨parent, options, pre, fields.filter fun f => !(md.field f).isStatic, layouts,
          layout.toInstanceLayout, ?_, ?_, ?_, hpre, hlayout, rfl⟩
        all_goals rw [howner]
        all_goals assumption
      have hset := Later.setOffset t _ (.inl hplaced)
      rw [← placeFields_append options (List.Forall₂.length_eq hpre)]
      have hrest := ih (pre ++ [f]) (by simpa using hsplit) (layouts ++ [layout.toInstanceLayout])
        (List.rel_append hpre (.cons hlayout .nil)) (hinv'.later hset rfl rfl)
      refine wp_mono hrest ?_ (fun _ _ h => h.after (hlater.trans hset))
      rintro placing u ⟨hlater', hinv'', hall, hwritten⟩
      refine ⟨(hlater.trans hset).trans hlater', hinv'', hall, ?_⟩
      intro g hg
      cases List.mem_cons.1 hg with
      | inl hgf =>
        subst hgf
        exact hlater'.written _ (written_setOffset hplaced)
      | inr hg => exact hwritten g hg

end Pnet.Engine
