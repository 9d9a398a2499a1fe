import Pnet.Engine.LayoutRefines

/-! `LayoutClass` and `LayoutType` keep the invariant: phase by phase through the layout
of a new class, then for calls of any depth, then for all that the engine asks for. -/
namespace Pnet.Engine
open Pnet.Lib Pnet.Image

variable {md : Metadata} {pf : Platform} {s t : LayoutState} {info : ClassId}

section
variable {layoutClass : ClassId → LayoutM LayoutInfo} {layoutType : ILType → LayoutM LayoutInfo}

/-! ### The parent and the interfaces -/

variable (md pf) in
/-- What a class takes over from its parent. -/
structure FromParent (t : LayoutState) (info : ClassId) (layout : LayoutInfo) : Prop where
  slots : ∃ slots, ParentHasSlots md info slots ∧ SlotsAre slots layout
  settled : ∀ parent, md.parent info = some parent → Settled md pf t parent

theorem FromParent.later {layout layout' : LayoutInfo} {own : Option ClassId}
    (h : FromParent md pf s info layout) (hlater : Later md pf s t own)
    (hvtable : layout'.vtable = layout.vtable)
    (hsize : layout'.vtableSize = layout.vtableSize) : FromParent md pf t info layout' := by
  obtain ⟨slots, hslots, hare⟩ := h.slots
  exact ⟨⟨slots, hslots, ⟨hvtable.trans hare.vtable, hsize.trans hare.vtableSize⟩⟩,
    fun parent hparent => (h.settled parent hparent).later hlater⟩

theorem layoutParent_sound (hclass : ClassSound md pf layoutClass) (hinv : Inv md pf s) :
    wp (layoutParent md layoutClass info) s
      (fun layout t => Later md pf s t none ∧ Inv md pf t ∧
        ParentLaysOut md pf info layout.toInstanceLayout ∧ FromParent md pf t info layout)
      (Refused md pf s) := by
  unfold layoutParent ParentLaysOut
  cases hparent : md.parent info with
  | none =>
    refine ⟨.refl, hinv, rfl, ⟨.empty, ?_, ⟨rfl, rfl⟩⟩, ?_⟩
    · unfold ParentHasSlots
      rw [hparent]
    · intro parent h
      rw [hparent] at h
      cases h
  | some parent =>
    refine wp_mono (hclass parent s hinv) ?_ (fun _ _ h => h)
    rintro layout t ⟨hlater, hinv', p, hp, hdone, heq⟩
    have hrefines := hinv'.refines parent p hp hdone
    rw [heq] at hrefines
    obtain ⟨slots, hslots, hare⟩ := hrefines.slots
    refine ⟨hlater, hinv', hrefines.laysOut, ⟨slots, ?_, hare⟩, ?_⟩
    · unfold ParentHasSlots
      rw [hparent]
      exact hslots
    · intro parent' h
      rw [hparent] at h
      cases h
      exact hrefines.settled

theorem layoutImplemented_sound (hclass : ClassSound md pf layoutClass)
    (implements : List ClassId) (hinv : Inv md pf s) :
    wp (layoutImplemented layoutClass implements) s
      (fun _ t => Later md pf s t none ∧ Inv md pf t) (Refused md pf s) := by
  induction implements generalizing s with
  | nil => exact ⟨.refl, hinv⟩
  | cons interface implements ih =>
    unfold layoutImplemented
    rw [wp_bind]
    refine wp_mono (hclass interface s hinv) ?_ (fun _ _ h => h)
    rintro _ t ⟨hlater, hinv', _⟩
    refine wp_mono (ih hinv') ?_ (fun _ _ h => h.after hlater)
    rintro _ u ⟨hlater', hinv''⟩
    exact ⟨hlater.trans hlater', hinv''⟩

/-! ### The instance -/

variable (md pf) in
/-- A class of which the size is recorded, and the vtable not yet. -/
structure Begun (t : LayoutState) (info : ClassId) (layout : LayoutInfo) : Prop where
  record : ∃ p, t.userData info = some p ∧ p.inLayout = false ∧
    p.layout.toInstanceLayout = layout.toInstanceLayout
  laysOut : ClassLaysOut md pf info layout.toInstanceLayout
  written : ∀ f ∈ instanceFields md info, Written md pf t f
  fromParent : FromParent md pf t info layout

theorem layoutInstance_sound (hclass : ClassSound md pf layoutClass)
    (htype : TypeSound md pf layoutType) (hinv : Inv md pf s) {p : ILClassPrivate}
    (hrecord : s.userData info = some p) :
    wp (layoutInstance md layoutClass layoutType info) s
      (fun layout t => Later md pf s t (some info) ∧ Inv md pf (t.clearPrivate info) ∧
        Begun md pf t info layout)
      (RefusedIn md pf info s) := by
  unfold layoutInstance
  rw [wp_bind]
  refine wp_mono (layoutParent_sound hclass hinv) ?_ (fun _ _ h => h.inside)
  rintro parent s₁ ⟨hlater₁, hinv₁, hparent, hfrom⟩
  rw [wp_bind]
  refine wp_mono (layoutImplemented_sound hclass _ hinv₁) ?_
    (fun _ _ h => (h.after hlater₁).inside)
  rintro _ s₂ ⟨hlater₂, hinv₂⟩
  have hlater₂' := hlater₁.trans hlater₂
  cases hoptions : layoutOptions md info with
  | none => exact fun _ => ⟨hlater₂'.weaken, hinv₂.clear info⟩
  | some options =>
    simp only
    rw [wp_bind]
    have hfields := layoutInstanceFields_sound htype hoptions hparent (md.fields info) [] rfl []
      .nil hinv₂
    refine wp_mono hfields ?_ (fun _ _ h => (h.after hlater₂').inside)
    rintro placing s₃ ⟨hlater₃, hinv₃, ⟨layouts, hlayouts, hplacing⟩, hwritten⟩
    have hlater₃' := hlater₂'.trans hlater₃
    simp only [wp_bind, wp_modify, wp_pure]
    refine ⟨hlater₃'.weaken.trans (.modifyPrivate _ _), ?_, ?_⟩
    · rw [clear_modifyPrivate]
      exact hinv₃.clear info
    · refine ⟨?_, ?_, hwritten, ?_⟩
      · rw [s₃.userData_modifyPrivate, hlater₃'.records info p (Option.some_ne_none info).symm hrecord]
        exact ⟨_, rfl, rfl, rfl⟩
      · exact classLaysOut_iff.2 ⟨_, options, layouts, hparent, hoptions, hlayouts, by rw [hplacing]⟩
      · exact (hfrom.later (hlater₂.trans hlater₃) rfl rfl).later (.modifyPrivate _ _) rfl rfl

/-! ### The vtable -/

theorem slotFor_newSlot (inherited : MemberId → Nat) {m : MemberId} (next : Nat)
    (h : (md.method m).newSlot = true ∨ virtualAncestor md info m = some none) :
    slotFor md info inherited m next = some (next, next + 1) := by
  unfold slotFor
  split
  · rfl
  · cases h with
    | inl h => contradiction
    | inr h => rw [h]

theorem assignSlots_snoc {inherited : MemberId → Nat} {pre : List MemberId} {m : MemberId}
    {slots middle : Nat × (MemberId → Nat)} {slot next : Nat}
    (hpre : assignSlots md info inherited pre slots = some middle)
    (hslot : slotFor md info inherited m middle.1 = some (slot, next)) :
    assignSlots md info inherited (pre ++ [m]) slots =
      some (next, Function.update middle.2 m slot) := by
  induction pre generalizing slots with
  | nil =>
    cases hpre
    simp only [List.nil_append, assignSlots, hslot]
  | cons m' pre ih =>
    obtain ⟨slot', next', hslot', hpre⟩ := assignSlots_cons hpre
    simp only [List.cons_append, assignSlots, hslot']
    exact ih hpre

theorem Inv.setIndex {m : MemberId} {index : Nat} (h : Inv md pf (s.clearPrivate info))
    (hplaced : SlotPlaced md m index) : Inv md pf ((s.setIndex m index).clearPrivate info) :=
  h.later (t := (s.setIndex m index).clearPrivate info)
    (.setIndex (s := s.clearPrivate info) hplaced) rfl rfl

theorem Later.setNewSlot (own : Option ClassId) {m : MemberId} :
    Later md pf s (s.setNewSlot m) own :=
  ⟨fun _ h => h, fun _ h => h, fun _ _ _ h => h⟩

theorem Inv.setNewSlot {m : MemberId} (h : Inv md pf s)
    (hnone : virtualAncestor md m.owner m = some none) : Inv md pf (s.setNewSlot m) := by
  refine ⟨fun other p hp hdone => ?_, fun m' hm' => ?_, fun m' hm' => ?_⟩
  · exact (h.refines other p hp hdone).later (.setNewSlot none)
  · by_cases hmm : m' = m
    · subst hmm
      exact s.newSlot_setNewSlot
    · rw [s.newSlot_setNewSlot_of_ne hmm]
      exact h.newSlot m' hm'
  · by_cases hmm : m' = m
    · subst hmm
      exact .inr hnone
    · rw [s.newSlot_setNewSlot_of_ne hmm] at hm'
      exact h.noAncestor m' hm'

/-- The slot read from an ancestor's method is the one in the parent's table. -/
theorem index_virtualAncestor {parent : SlotTable} (hparent : ParentHasSlots md info parent)
    (hsettled : ∀ parentId, md.parent info = some parentId → Settled md pf s parentId)
    {m ancestor : MemberId} (h : virtualAncestor md info m = some (some ancestor)) :
    s.index ancestor = parent.index ancestor := by
  obtain ⟨parentId, owner, hparentId, hinherits, hmem⟩ := virtualAncestor_mem h
  unfold ParentHasSlots at hparent
  rw [hparentId] at hparent
  have hslotted := (hsettled parentId hparentId).slotted owner hinherits ancestor hmem
  exact SlotPlaced.unique hslotted (hparent.slotPlaced hinherits hmem)

variable (md pf) in
/-- The slots of `methods`, the last of a class's methods, are given. -/
structure Allocated (s t : LayoutState) (info : ClassId) (parent : SlotTable)
    (methods : List MemberId) (layout layout' : LayoutInfo) : Prop where
  later : Later md pf s t none
  inv : Inv md pf (t.clearPrivate info)
  records : t.userData = s.userData
  assigned : ∃ index, assignSlots md info parent.index (virtualMethods md info)
    (parent.vtable.length, parent.index) = some (layout'.vtableSize, index)
  slotted : ∀ m ∈ methods.filter fun m => (md.method m).isVirtual, Slotted md t m
  rest : layout' = { layout with
    vtableSize := layout'.vtableSize, hasFinalizer := layout'.hasFinalizer }

theorem Allocated.cons {u : LayoutState} {parent : SlotTable} {m : MemberId}
    {methods : List MemberId} {layout layout' : LayoutInfo} {next : Nat} {finalizer : Bool}
    (h : Allocated md pf t u info parent methods
      { layout with vtableSize := next, hasFinalizer := finalizer } layout')
    (hlater : Later md pf s t none) (hrecords : t.userData = s.userData)
    (hslotted : Slotted md t m) :
    Allocated md pf s u info parent (m :: methods) layout layout' := by
  refine ⟨hlater.trans h.later, h.inv, h.records.trans hrecords, h.assigned, ?_, h.rest⟩
  intro m' hm'
  obtain ⟨hmem, hvirtual⟩ := List.mem_filter.1 hm'
  cases List.mem_cons.1 hmem with
  | inl hmm => exact hmm ▸ h.later.slotted m hslotted
  | inr hmem => exact h.slotted m' (List.mem_filter.2 ⟨hmem, hvirtual⟩)

theorem allocateSlots_sound {parent : SlotTable} (hparent : ParentHasSlots md info parent)
    (methods pre : List MemberId)
    (hsplit : virtualMethods md info = pre ++ methods.filter fun m => (md.method m).isVirtual)
    (layout : LayoutInfo) (index : MemberId → Nat)
    (hpre : assignSlots md info parent.index pre (parent.vtable.length, parent.index) =
      some (layout.vtableSize, index))
    (hsettled : ∀ parentId, md.parent info = some parentId → Settled md pf s parentId)
    (hinv : Inv md pf (s.clearPrivate info)) :
    wp (allocateSlots md info methods layout) s
      (fun layout' t => Allocated md pf s t info parent methods layout layout')
      (fun e _ => e = .endless) := by
  induction methods generalizing s pre layout index with
  | nil =>
    rw [List.filter_nil, List.append_nil] at hsplit
    subst hsplit
    exact ⟨.refl, hinv, rfl, ⟨index, hpre⟩, nofun, rfl⟩
  | cons m methods ih =>
    unfold allocateSlots
    apply wp_ite
    · intro hvirtual
      rw [List.filter_cons_of_pos (by simpa using hvirtual)] at hsplit
      have howner : m.owner = info := by
        have hmem : m ∈ virtualMethods md info := by
          rw [hsplit]
          exact List.mem_append_right _ (List.mem_cons_self ..)
        exact owner_of_mem_virtualMethods hmem
      have hplaced : ∀ slot next, slotFor md info parent.index m layout.vtableSize =
          some (slot, next) → SlotPlaced md m slot := by
        intro slot next hslot
        refine ⟨parent, pre, methods.filter fun m => (md.method m).isVirtual,
          (layout.vtableSize, index), next, ?_, ?_, ?_, ?_⟩
        all_goals rw [howner]
        all_goals assumption
      -- whichever branch gives the slot, the rest is the same
      have hstep : ∀ (u : LayoutState) (slot next : Nat) (finalizer : Bool),
          slotFor md info parent.index m layout.vtableSize = some (slot, next) →
          Later md pf s u none → Inv md pf (u.clearPrivate info) → u.userData = s.userData →
          wp (allocateSlots md info methods
              { layout with vtableSize := next, hasFinalizer := finalizer }) (u.setIndex m slot)
            (fun layout' t => Allocated md pf s t info parent (m :: methods) layout layout')
            (fun e _ => e = .endless) := by
        intro u slot next finalizer hslot hlater hinv' hrecords
        have hp := hplaced slot next hslot
        have hlater' := hlater.trans (.setIndex hp)
        refine wp_mono (ih (pre ++ [m]) (by simpa using hsplit) _ _ (assignSlots_snoc hpre hslot)
          (fun parentId h => (hsettled parentId h).later hlater') (hinv'.setIndex hp)) ?_
          (fun _ _ h => h)
        exact fun _ _ h => h.cons hlater' hrecords (slotted_setIndex hp)
      simp only [wp_bind, wp_get]
      apply wp_ite
      · intro hnew
        have hreason := hinv.noAncestor m hnew
        rw [howner] at hreason
        simp only [wp_bind, wp_modify]
        exact hstep s _ _ _ (slotFor_newSlot parent.index layout.vtableSize hreason) .refl hinv rfl
      · intro hnew
        have hnotNew : ¬ (md.method m).newSlot = true := fun h => hnew (hinv.newSlot m h)
        cases hancestor : virtualAncestor md info m with
        | none => rfl
        | some found =>
          cases found with
          | some ancestor =>
            simp only [wp_bind, wp_modify]
            have hslot : slotFor md info parent.index m layout.vtableSize =
                some (s.index ancestor, layout.vtableSize) := by
              rw [index_virtualAncestor hparent hsettled hancestor]
              simp only [slotFor, if_neg hnotNew, hancestor]
            exact hstep s _ _ _ hslot .refl hinv rfl
          | none =>
            simp only [wp_bind, wp_modify]
            have hinv' : Inv md pf ((s.setNewSlot m).clearPrivate info) :=
              Inv.setNewSlot (s := s.clearPrivate info) hinv (by rw [howner]; exact hancestor)
            exact hstep (s.setNewSlot m) _ _ _
              (slotFor_newSlot parent.index layout.vtableSize (.inr hancestor))
              (.setNewSlot none) hinv' rfl
    · intro hvirtual
      rw [List.filter_cons_of_neg (by simpa using hvirtual)] at hsplit
      refine wp_mono (ih pre hsplit layout index hpre hsettled hinv) ?_ (fun _ _ h => h)
      intro layout' t h
      refine ⟨h.later, h.inv, h.records, h.assigned, ?_, h.rest⟩
      rw [List.filter_cons_of_neg (by simpa using hvirtual)]
      exact h.slotted

theorem overrideSlots_congr {index index' : MemberId → Nat} (methods : List MemberId)
    (h : ∀ m ∈ methods.filter fun m => (md.method m).isVirtual, index m = index' m)
    (vtable : List (Option MemberId)) :
    overrideSlots md index methods vtable = overrideSlots md index' methods vtable := by
  induction methods generalizing vtable with
  | nil => rfl
  | cons m methods ih =>
    unfold overrideSlots
    cases hvirtual : (md.method m).isVirtual with
    | true =>
      rw [List.filter_cons_of_pos (by simpa using hvirtual)] at h
      rw [h m (List.mem_cons_self ..)]
      exact ih (fun m' hm' => h m' (List.mem_cons_of_mem _ hm')) _
    | false =>
      rw [List.filter_cons_of_neg (by simp [hvirtual])] at h
      exact ih h _

@[simp] theorem length_overrideSlots (index : MemberId → Nat) (methods : List MemberId)
    (vtable : List (Option MemberId)) :
    (overrideSlots md index methods vtable).length = vtable.length := by
  induction methods generalizing vtable with
  | nil => rfl
  | cons m methods ih =>
    unfold overrideSlots
    split
    · rw [ih, List.length_set]
    · exact ih _

theorem assignSlots_le {inherited : MemberId → Nat} {methods : List MemberId}
    {slots result : Nat × (MemberId → Nat)}
    (h : assignSlots md info inherited methods slots = some result) : slots.1 ≤ result.1 := by
  induction methods generalizing slots with
  | nil =>
    cases h
    exact Nat.le_refl _
  | cons m methods ih =>
    obtain ⟨slot, next, hslot, h⟩ := assignSlots_cons h
    refine Nat.le_trans ?_ (ih h)
    unfold slotFor at hslot
    split at hslot
    · cases hslot
      exact Nat.le_succ _
    · split at hslot
      · cases hslot
        exact Nat.le_refl _
      · cases hslot
        exact Nat.le_succ _
      · cases hslot

theorem length_copyVtable {parent : List (Option MemberId)} {size : Nat}
    (h : parent.length ≤ size) : (copyVtable parent parent.length size).length = size := by
  simp only [copyVtable, List.length_append, List.take_length, List.length_replicate]
  omega

/-- The fields of a layout that are known before the static fields are laid out. -/
def LayoutInfo.beforeStatics (layout : LayoutInfo) : LayoutInfo :=
  { layout with staticSize := 0, managedStatic := false }

/-- A class that can be used, with all of its record but the static fields. -/
def HasVtable (t : LayoutState) (info : ClassId) (layout : LayoutInfo) : Prop :=
  ∃ p, t.userData info = some p ∧ p.inLayout = false ∧
    p.layout.beforeStatics = layout.beforeStatics

theorem layoutVtable_sound {layout : LayoutInfo} (hinv : Inv md pf (s.clearPrivate info))
    (hbegun : Begun md pf s info layout) :
    wp (layoutVtable md info layout) s
      (fun layout' t => Later md pf s t (some info) ∧ Inv md pf t ∧ HasVtable t info layout')
      (RefusedIn md pf info s) := by
  obtain ⟨slots, hparent, hare⟩ := hbegun.fromParent.slots
  unfold layoutVtable
  rw [wp_bind]
  refine wp_mono (allocateSlots_sound hparent (md.methods info) [] rfl layout slots.index (by rw [hare.vtableSize]; rfl)
    hbegun.fromParent.settled hinv) ?_ ?_
  · rintro allocated t ⟨hlater, hinv', hrecords, ⟨index, hassign⟩, hslotted, heq⟩
    refine wp_ite _ ?_ ?_
    · exact fun _ _ => ⟨hlater.weaken, hinv'⟩
    · intro hsize
      simp only [wp_bind, wp_get, wp_modify, wp_pure]
      have hindex : ∀ m ∈ virtualMethods md info, t.index m = index m := fun m hm =>
        SlotPlaced.unique (hslotted m hm) (slotPlaced_of_assignSlots hparent hassign hm)
      have hlater' := hlater.weaken.trans (Later.modifyPrivate info fun p =>
        { p with layout := { p.layout with
            vtableSize := allocated.vtableSize
            vtable := overrideSlots md t.index (md.methods info)
              (copyVtable layout.vtable layout.vtableSize allocated.vtableSize)
            hasFinalizer := allocated.hasFinalizer } })
      have hhas : ClassHasSlots md info ⟨overrideSlots md index (md.methods info)
          (copyVtable slots.vtable slots.vtable.length allocated.vtableSize), index⟩ := by
        refine classHasSlots_iff.2 ⟨slots, hparent, ?_⟩
        unfold extendSlots
        rw [hassign]
        exact if_neg hsize
      obtain ⟨p, hp, hdone, hinstance⟩ := hbegun.record
      have hrecord : t.userData info = some p := hrecords ▸ hp
      refine ⟨hlater', Inv.of_clear info ?_ ?_, ?_⟩
      · rw [clear_modifyPrivate]
        exact hinv'
      · intro p' hp' _
        rw [t.userData_modifyPrivate, hrecord] at hp'
        cases hp'
        refine ⟨⟨?_, ?_⟩, ?_, ⟨_, hhas, ?_, ?_⟩⟩
        · intro ancestor hinherits f hf
          cases hinherits.cases with
          | inl hself =>
            subst hself
            exact hlater'.written f (hbegun.written f hf)
          | inr habove =>
            obtain ⟨parentId, hparentId, hinherits⟩ := habove
            exact hlater'.written f
              ((hbegun.fromParent.settled parentId hparentId).written ancestor hinherits f hf)
        · intro ancestor hinherits m hm
          cases hinherits.cases with
          | inl hself =>
            subst hself
            exact hslotted m hm
          | inr habove =>
            obtain ⟨parentId, hparentId, hinherits⟩ := habove
            exact hlater'.slotted m
              ((hbegun.fromParent.settled parentId hparentId).slotted ancestor hinherits m hm)
        · simp only [hinstance]
          exact hbegun.laysOut
        · simp only [overrideSlots_congr (md.methods info) hindex, hare.vtable, hare.vtableSize]
        · have hle : slots.vtable.length ≤ allocated.vtableSize := assignSlots_le hassign
          simp only [length_overrideSlots, length_copyVtable hle]
      · rw [HasVtable, t.userData_modifyPrivate, hrecord]
        refine ⟨_, rfl, hdone, ?_⟩
        rw [heq]
        simp only [LayoutInfo.beforeStatics, hinstance]
  · intro e t he hzero
    rw [he] at hzero
    cases hzero

/-! ### Static fields and interface tables -/

theorem layoutStaticFields_sound (htype : TypeSound md pf layoutType) (fields : List MemberId)
    (layout : LayoutInfo) (hinv : Inv md pf s) :
    wp (layoutStaticFields md layoutType info fields layout) s
      (fun layout' t => Later md pf s t none ∧ Inv md pf t ∧
        layout'.beforeStatics = layout.beforeStatics)
      (Refused md pf s) := by
  induction fields generalizing s layout with
  | nil => exact ⟨.refl, hinv, rfl⟩
  | cons f fields ih =>
    unfold layoutStaticFields
    refine wp_ite _ ?_ ?_
    · intro hstorage
      have hstatic : (md.field f).isStatic = true := by
        unfold hasStaticStorage at hstorage
        rw [Bool.and_eq_true, Bool.and_eq_true] at hstorage
        exact hstorage.1.1
      rw [wp_bind]
      refine wp_mono (htype _ s hinv) ?_ (fun _ _ h => h)
      rintro typeLayout t ⟨hlater, hinv', _⟩
      refine wp_ite _ ?_ ?_
      · intro _
        rw [wp_bind, wp_modify]
        have hset : Later md pf t (t.setThreadStatic f typeLayout.size) none :=
          (Later.setOffset t (t.numThreadStaticSlots, typeLayout.size) (.inr hstatic)).trans
            ⟨fun _ h => h, fun _ h => h, fun _ _ _ h => h⟩
        refine wp_mono (ih layout (hinv'.later hset rfl rfl)) ?_
          (fun _ _ h => h.after (hlater.trans hset))
        rintro layout' u ⟨hlater', hinv'', heq⟩
        exact ⟨(hlater.trans hset).trans hlater', hinv'', heq⟩
      · intro _
        simp only [wp_bind, wp_modify]
        have hset : Later md pf t (t.setOffset f (alignTo layout.staticSize typeLayout.alignment)
            (alignTo layout.staticSize typeLayout.alignment)) none :=
          Later.setOffset t (_, _) (.inr hstatic)
        refine wp_mono (ih _ (hinv'.later hset rfl rfl)) ?_
          (fun _ _ h => h.after (hlater.trans hset))
        rintro layout' u ⟨hlater', hinv'', heq⟩
        exact ⟨(hlater.trans hset).trans hlater', hinv'', heq⟩
    · intro _
      exact ih layout hinv

/-- Only the interface tables of `info` change. -/
def SameLayout (s t : LayoutState) (info : ClassId) : Prop :=
  ∀ p, s.userData info = some p →
    ∃ p', t.userData info = some p' ∧ p'.inLayout = p.inLayout ∧ p'.layout = p.layout

theorem SameLayout.trans {u : LayoutState} (h : SameLayout s t info) (h' : SameLayout t u info) :
    SameLayout s u info := by
  intro p hp
  obtain ⟨p', hp', hin, hlayout⟩ := h p hp
  obtain ⟨p'', hp'', hin', hlayout'⟩ := h' p' hp'
  exact ⟨p'', hp'', hin'.trans hin, hlayout'.trans hlayout⟩

theorem SameLayout.refl : SameLayout s s info := fun p hp => ⟨p, hp, rfl, rfl⟩

theorem wp_liftExcept {α : Type} (x : Except LayoutExit α) {Q : α → LayoutState → Prop}
    {E : LayoutExit → LayoutState → Prop} (hQ : ∀ a, Q a s) (hE : ∀ e, E e s) :
    wp (liftExcept x) s Q E := by
  cases x with
  | ok a => exact hQ a
  | error e => exact hE e

variable (md pf info) in
/-- What holds after each step of the interface tables, and when they are refused. -/
def TablesKept (s t : LayoutState) : Prop :=
  Later md pf s t (some info) ∧ Inv md pf t ∧ SameLayout s t info

theorem TablesKept.trans {u : LayoutState} (h : TablesKept md pf info s t)
    (h' : TablesKept md pf info t u) : TablesKept md pf info s u :=
  ⟨h.1.trans h'.1, h'.2.1, h.2.2.trans h'.2.2⟩

theorem tablesKept_addTable (info : ClassId) (hinv : Inv md pf s) (table : ILImplPrivate) :
    TablesKept md pf info s (s.modifyPrivate info fun p =>
      { p with implements := table :: p.implements }) := by
  refine ⟨.modifyPrivate _ _, Inv.of_clear info ?_ ?_, ?_⟩
  · rw [clear_modifyPrivate]
    exact hinv.clear info
  · intro p' hp' hdone
    rw [s.userData_modifyPrivate] at hp'
    obtain ⟨p, hp, hp'⟩ := Option.map_eq_some_iff.1 hp'
    subst hp'
    exact (hinv.refines info p hp hdone).later (.modifyPrivate info _)
  · intro p hp
    rw [s.userData_modifyPrivate, hp]
    exact ⟨_, rfl, rfl, rfl⟩

theorem wp_forM {α : Type} (f : α → LayoutM Unit) (as : List α)
    (hf : ∀ a ∈ as, ∀ s, Inv md pf s →
      wp (f a) s (fun _ t => TablesKept md pf info s t) (fun _ t => TablesKept md pf info s t))
    (hinv : Inv md pf s) :
    wp (as.forM f) s (fun _ t => TablesKept md pf info s t)
      (fun _ t => TablesKept md pf info s t) := by
  induction as generalizing s with
  | nil => exact ⟨.refl, hinv, .refl⟩
  | cons a as ih =>
    show wp (f a >>= fun _ => as.forM f) s _ _
    rw [wp_bind]
    refine wp_mono (hf a (List.mem_cons_self ..) s hinv) ?_ (fun _ _ h => h)
    intro _ t hkept
    refine wp_mono (ih (fun a ha => hf a (List.mem_cons_of_mem _ ha)) hkept.2.1) ?_ ?_
    · exact fun _ _ h => hkept.trans h
    · exact fun _ _ h => hkept.trans h

theorem computeInterfaceTable_sound (fuel : Nat) (interface : ClassId) (hinv : Inv md pf s) :
    wp (computeInterfaceTable md info fuel interface) s
      (fun _ t => TablesKept md pf info s t) (fun _ t => TablesKept md pf info s t) := by
  induction fuel generalizing s interface with
  | zero => exact ⟨.refl, hinv, .refl⟩
  | succ fuel ih =>
    have hsame : TablesKept md pf info s s := ⟨.refl, hinv, .refl⟩
    unfold computeInterfaceTable
    simp only [wp_bind, wp_get]
    split
    · exact hsame
    · refine wp_ite _ (fun _ => hsame) fun _ => ?_
      split
      · exact hsame
      · simp only [wp_bind]
        apply wp_liftExcept
        · intro inherited
          apply wp_liftExcept
          · intro table
            have hadd := tablesKept_addTable info hinv ⟨interface, table⟩
            rw [wp_modify]
            refine wp_mono (wp_forM _ _ (fun _ _ _ h => ih _ h) hadd.2.1) ?_ ?_
            · exact fun _ _ h => hadd.trans h
            · exact fun _ _ h => hadd.trans h
          · exact fun _ => hsame
        · exact fun _ => hsame

theorem computeInterfaceTables_sound (implements : List ClassId) (hinv : Inv md pf s) :
    wp (computeInterfaceTables md info implements) s
      (fun _ t => TablesKept md pf info s t) (fun _ t => TablesKept md pf info s t) := by
  induction implements generalizing s with
  | nil => exact ⟨.refl, hinv, .refl⟩
  | cons interface implements ih =>
    unfold computeInterfaceTables
    simp only [wp_bind, wp_get]
    apply wp_ite
    · intro _
      rw [wp_bind]
      refine wp_mono (computeInterfaceTable_sound _ _ hinv) ?_ (fun _ _ h => h)
      intro _ t hkept
      refine wp_mono (ih hkept.2.1) ?_ ?_
      · exact fun _ _ h => hkept.trans h
      · exact fun _ _ h => hkept.trans h
    · intro _
      exact ih hinv

/-! ### Whole calls -/

theorem HasVtable.later {layout layout' : LayoutInfo} (h : HasVtable s info layout)
    (hlater : Later md pf s t none) (heq : layout'.beforeStatics = layout.beforeStatics) :
    HasVtable t info layout' := by
  obtain ⟨p, hp, hdone, hlayout⟩ := h
  exact ⟨p, hlater.records info p (Option.some_ne_none info).symm hp, hdone, hlayout.trans heq.symm⟩

/-- The record of the static fields completes the record of the class. -/
theorem HasVtable.complete {layout : LayoutInfo} (h : HasVtable s info layout) :
    HasRecord (s.modifyPrivate info fun p =>
      { p with layout := { p.layout with
          staticSize := layout.staticSize
          managedStatic := layout.managedStatic } }) info layout := by
  obtain ⟨p, hp, hdone, hlayout⟩ := h
  obtain ⟨hinstance, hsize, hslots, _, hfinalizer, _⟩ := LayoutInfo.mk.inj hlayout
  rw [HasRecord, s.userData_modifyPrivate, hp]
  refine ⟨_, rfl, hdone, ?_⟩
  simp only [hinstance, hsize, hslots, hfinalizer]

theorem HasRecord.sameLayout {layout : LayoutInfo} (h : HasRecord s info layout)
    (hsame : SameLayout s t info) : HasRecord t info layout := by
  obtain ⟨p, hp, hdone, hlayout⟩ := h
  obtain ⟨p', hp', hin, hlayout'⟩ := hsame p hp
  exact ⟨p', hp', hin.trans hdone, hlayout'.trans hlayout⟩

variable (info) in
/-- The invariant does not look at the static fields. -/
theorem inv_recordStatics (hinv : Inv md pf s) (layout : LayoutInfo) :
    Inv md pf (s.modifyPrivate info fun p =>
      { p with layout := { p.layout with
          staticSize := layout.staticSize
          managedStatic := layout.managedStatic } }) := by
  apply Inv.of_clear info
  · rw [clear_modifyPrivate]
    exact hinv.clear info
  · intro p' hp' hdone
    rw [s.userData_modifyPrivate] at hp'
    obtain ⟨p, hp, hp'⟩ := Option.map_eq_some_iff.1 hp'
    subst hp'
    have hrefines := (hinv.refines info p hp hdone).later (.modifyPrivate info fun p =>
      { p with layout := { p.layout with
          staticSize := layout.staticSize
          managedStatic := layout.managedStatic } })
    obtain ⟨slots, hslots, hare⟩ := hrefines.slots
    exact ⟨hrefines.settled, hrefines.laysOut, slots, hslots, hare.vtable, hare.vtableSize⟩

theorem layoutNewClass_sound (hclass : ClassSound md pf layoutClass)
    (htype : TypeSound md pf layoutType) (hinv : Inv md pf s) {p : ILClassPrivate}
    (hrecord : s.userData info = some p) :
    wp (layoutNewClass md layoutClass layoutType info) s
      (fun layout t => Later md pf s t (some info) ∧ Inv md pf t ∧ HasRecord t info layout)
      (RefusedIn md pf info s) := by
  unfold layoutNewClass
  rw [wp_bind]
  refine wp_mono (layoutInstance_sound hclass htype hinv hrecord) ?_ (fun _ _ h => h)
  rintro layout₁ s₁ ⟨hlater₁, hinv₁, hbegun⟩
  rw [wp_bind]
  refine wp_mono (layoutVtable_sound hinv₁ hbegun) ?_ (fun _ _ h => h.after hlater₁)
  rintro layout₂ s₂ ⟨hlater₂, hinv₂, hvtable⟩
  have hlater₂' := hlater₁.trans hlater₂
  rw [wp_bind]
  refine wp_mono (layoutStaticFields_sound htype (md.fields info) layout₂ hinv₂) ?_
    (fun _ _ h => h.inside.after hlater₂')
  rintro layout₃ s₃ ⟨hlater₃, hinv₃, heq⟩
  have hlater₃' := hlater₂'.trans hlater₃.weaken
  have hcomplete := (hvtable.later hlater₃ heq).complete
  simp only [wp_bind, wp_modify]
  have hlater₄ := hlater₃'.trans (.modifyPrivate info fun p =>
    { p with layout := { p.layout with
        staticSize := layout₃.staticSize
        managedStatic := layout₃.managedStatic } })
  have hinv₄ := inv_recordStatics info hinv₃ layout₃
  apply wp_ite
  · intro _
    rw [wp_bind]
    refine wp_mono (computeInterfaceTables_sound _ hinv₄) ?_ ?_
    · rintro _ u ⟨hlater, hinv', hsame⟩
      exact ⟨hlater₄.trans hlater, hinv', hcomplete.sameLayout hsame⟩
    · rintro _ u ⟨hlater, hinv', _⟩ _
      exact ⟨hlater₄.trans hlater, hinv'.clear info⟩
  · intro _
    exact ⟨hlater₄, hinv₄, hcomplete⟩

theorem layoutClassStep_sound (hclass : ClassSound md pf layoutClass)
    (htype : TypeSound md pf layoutType) :
    ClassSound md pf (layoutClassStep md layoutClass layoutType) := by
  intro info s hinv
  unfold layoutClassStep
  simp only [wp_bind, wp_get]
  cases hrecord : s.userData info with
  | some p =>
    apply wp_ite
    · exact fun _ _ => ⟨.refl, hinv⟩
    · exact fun hdone => ⟨.refl, hinv, p, hrecord, by simpa using hdone, rfl⟩
  | none =>
    simp only [wp_bind, wp_modify, wp_onFailure]
    have hlater : Later md pf s (s.setPrivate info ILClassPrivate.fresh) (some info) := by
      refine ⟨fun _ h => h, fun _ h => h, fun other p hne hp => ?_⟩
      rw [s.userData_setPrivate_of_ne _ fun heq => hne (congrArg some heq.symm)]
      exact hp
    have hinv' : Inv md pf (s.setPrivate info ILClassPrivate.fresh) := by
      apply Inv.of_clear info
      · have hclear : (s.setPrivate info ILClassPrivate.fresh).clearPrivate info =
            s.clearPrivate info := by
          simp only [LayoutState.setPrivate, LayoutState.clearPrivate, Function.update_idem]
        rw [hclear]
        exact hinv.clear info
      · intro p hp hdone
        rw [s.userData_setPrivate] at hp
        cases hp
        cases hdone
    refine wp_mono (layoutNewClass_sound hclass htype hinv' (s.userData_setPrivate _)) ?_ ?_
    · rintro layout t ⟨hlater', hinv'', hhas⟩
      exact ⟨(hlater.trans hlater').of_new hrecord, hinv'', hhas⟩
    · intro e t hrefused hzero
      obtain ⟨hlater', hinv''⟩ := hrefused hzero
      exact ⟨(hlater.trans hlater').clear.of_new hrecord, hinv''⟩

theorem layoutTypeStep_sound (hclass : ClassSound md pf layoutClass)
    (htype : TypeSound md pf layoutType) :
    TypeSound md pf (layoutTypeStep md pf layoutClass layoutType) := by
  intro type s hinv
  unfold layoutTypeStep
  have hiff : ∀ layout, TypeLaysOut md pf type layout ↔ _ := fun _ => typeLaysOut_iff
  split
  · rename_i elem hstrip
    simp only [hstrip] at hiff
    split
    · rename_i layout hlayout
      exact ⟨.refl, hinv, (hiff _).2 hlayout⟩
    · exact fun _ => ⟨.refl, hinv⟩
  · rename_i info hstrip
    simp only [hstrip] at hiff
    split
    · rename_i hsyn
      simp only [hsyn] at hiff
      refine wp_mono (hclass info s hinv) ?_ (fun _ _ h => h)
      rintro layout t ⟨hlater, hinv', p, hp, hdone, heq⟩
      refine ⟨hlater, hinv', (hiff _).2 ?_⟩
      rw [← heq]
      exact (hinv'.refines info p hp hdone).laysOut
    · rename_i synType hsyn
      simp only [hsyn] at hiff
      refine wp_mono (htype _ s hinv) ?_ (fun _ _ h => h)
      rintro layout t ⟨hlater, hinv', hlayout⟩
      exact ⟨hlater, hinv', (hiff _).2 hlayout⟩
  · rename_i hprim hval
    refine ⟨.refl, hinv, (hiff _).2 ?_⟩
    split
    · exact absurd (by assumption) (hprim _)
    · exact absurd (by assumption) (hval _)
    · rfl

end

variable (md pf) in
/-- Calls of any depth keep the invariant. -/
theorem layout_sound (fuel : Nat) :
    ClassSound md pf (layoutClass md pf fuel) ∧ TypeSound md pf (layoutType md pf fuel) := by
  induction fuel with
  | zero =>
    constructor
    · exact fun _ _ _ h => nomatch h
    · exact fun _ _ _ h => nomatch h
  | succ fuel ih =>
    constructor
    · exact layoutClassStep_sound ih.1 ih.2
    · exact layoutTypeStep_sound ih.1 ih.2

/-- Between the calls the invariant holds. -/
theorem Reachable.inv (h : Reachable md pf s) : Inv md pf s := by
  induction h with
  | initial => exact .initial
  | @laidOut s t fuel info layout _ hrun ih =>
    have hsound := (layout_sound md pf fuel).1 info s ih
    exact (wp_ok hsound hrun).2.1
  | @refused s t fuel info _ hrun ih =>
    have hsound := (layout_sound md pf fuel).1 info s ih
    exact (wp_error hsound hrun rfl).2

/-- An accepted class has a record that the metadata bear out. -/
theorem Reachable.refines (h : Reachable md pf s) {fuel : Nat} {layout : LayoutInfo}
    (hrun : layoutClass md pf fuel info s = .ok layout t) :
    Refines md pf t info layout := by
  have hsound := (layout_sound md pf fuel).1 info s h.inv
  obtain ⟨_, hinv, p, hp, hdone, heq⟩ := wp_ok hsound hrun
  rw [← heq]
  exact hinv.refines info p hp hdone

end Pnet.Engine
