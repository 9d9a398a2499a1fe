import Pnet.Engine.Layout
import Pnet.Lib.Loop

/-! What a layout is, as a function of the metadata alone: the instance layout of a
class and of a type, the offset of a field, and the slots of the virtual methods. -/
namespace Pnet.Engine
open Pnet.Lib Pnet.Image

variable (md : Metadata) (pf : Platform)

/-! ### Instances -/

def instanceFields (info : ClassId) : List MemberId :=
  (md.fields info).filter fun f => !(md.field f).isStatic

def parentInstance (classLayout : ClassId → Option InstanceLayout) (info : ClassId) :
    Option InstanceLayout :=
  match md.parent info with
  | some parent => classLayout parent
  | none => some rootLayout

def fieldTypes (typeLayout : ILType → Option InstanceLayout) :
    List MemberId → Option (List InstanceLayout)
  | [] => some []
  | f :: fields =>
    match typeLayout (md.field f).signature, fieldTypes typeLayout fields with
    | some layout, some layouts => some (layout :: layouts)
    | _, _ => none

def placeFields (options : LayoutOptions) : List MemberId → List InstanceLayout → Placing → Placing
  | f :: fields, layout :: layouts, placing =>
    placeFields options fields layouts (placeInstanceField md options f layout placing).2
  | _, _, placing => placing

def classInstanceStep (classLayout : ClassId → Option InstanceLayout)
    (typeLayout : ILType → Option InstanceLayout) (info : ClassId) : Option InstanceLayout :=
  match parentInstance md classLayout info, layoutOptions md info,
    fieldTypes md typeLayout (instanceFields md info) with
  | some parent, some options, some layouts =>
    some (finishInstance options
      (placeFields md options (instanceFields md info) layouts { layout := parent }))
  | _, _, _ => none

def typeInstanceStep (classLayout : ClassId → Option InstanceLayout)
    (typeLayout : ILType → Option InstanceLayout) (type : ILType) : Option InstanceLayout :=
  match ilTypeStripPrefixes type with
  | .primitive elem => primitiveLayout pf elem
  | .valueType info =>
    match (md.cls info).synthetic with
    | none => classLayout info
    | some synType => typeLayout (ilTypeStripPrefixes synType)
  | type => some (pf.pointer.layout (ilTypeIsReference type))

mutual

def classInstance : Nat → ClassId → Option InstanceLayout
  | 0, _ => none
  | fuel + 1, info => classInstanceStep md (classInstance fuel) (typeInstance fuel) info

def typeInstance : Nat → ILType → Option InstanceLayout
  | 0, _ => none
  | fuel + 1, type => typeInstanceStep md pf (classInstance fuel) (typeInstance fuel) type

end

/-- `layout` is the instance layout of the class. -/
def ClassLaysOut (info : ClassId) (layout : InstanceLayout) : Prop :=
  Answers (classInstance md pf) info layout

def TypeLaysOut (type : ILType) (layout : InstanceLayout) : Prop :=
  Answers (typeInstance md pf) type layout

def ParentLaysOut (info : ClassId) (layout : InstanceLayout) : Prop :=
  match md.parent info with
  | some parent => ClassLaysOut md pf parent layout
  | none => layout = rootLayout

def FieldsLayOut (fields : List MemberId) (layouts : List InstanceLayout) : Prop :=
  List.Forall₂ (fun f layout => TypeLaysOut md pf (md.field f).signature layout) fields layouts

/-! More fuel gives no other answer. -/

section
variable {classLayout classLayout' : ClassId → Option InstanceLayout}
  {typeLayout typeLayout' : ILType → Option InstanceLayout}
  (hclass : Extends classLayout classLayout') (htype : Extends typeLayout typeLayout')

include hclass in
theorem parentInstance_mono :
    Extends (parentInstance md classLayout) (parentInstance md classLayout') := by
  intro info layout h
  unfold parentInstance at *
  cases hparent : md.parent info with
  | none =>
    rw [hparent] at h
    exact h
  | some parent =>
    rw [hparent] at h
    exact hclass _ _ h

include htype in
theorem fieldTypes_mono : Extends (fieldTypes md typeLayout) (fieldTypes md typeLayout') := by
  intro fields layouts h
  induction fields generalizing layouts with
  | nil => exact h
  | cons f fields ih =>
    unfold fieldTypes at h ⊢
    split at h
    · rename_i layout rest hlayout hrest
      simp only [htype _ _ hlayout, ih rest hrest]
      exact h
    · cases h

include hclass htype in
theorem classInstanceStep_mono :
    Extends (classInstanceStep md classLayout typeLayout)
      (classInstanceStep md classLayout' typeLayout') := by
  intro info layout h
  unfold classInstanceStep at *
  split at h
  · rename_i parent options layouts hparent hoptions hlayouts
    simp only [parentInstance_mono md hclass _ _ hparent, hoptions,
      fieldTypes_mono md htype _ _ hlayouts]
    exact h
  · cases h

include hclass htype in
theorem typeInstanceStep_mono :
    Extends (typeInstanceStep md pf classLayout typeLayout)
      (typeInstanceStep md pf classLayout' typeLayout') := by
  intro type layout h
  unfold typeInstanceStep at *
  split at h
  · exact h
  · split at h
    · exact hclass _ _ h
    · exact htype _ _ h
  · exact h

end

theorem instance_fueled : Fueled (classInstance md pf) ∧ Fueled (typeInstance md pf) := by
  apply forall_and.1
  intro fuel
  induction fuel with
  | zero =>
    constructor
    · intro info layout h
      cases h
    · intro type layout h
      cases h
  | succ fuel ih =>
    constructor
    · exact classInstanceStep_mono md ih.1 ih.2
    · exact typeInstanceStep_mono md pf ih.1 ih.2

theorem classInstance_fueled : Fueled (classInstance md pf) := (instance_fueled md pf).1

theorem typeInstance_fueled : Fueled (typeInstance md pf) := (instance_fueled md pf).2

variable {md pf}

theorem ClassLaysOut.unique {info : ClassId} {layout layout' : InstanceLayout}
    (h : ClassLaysOut md pf info layout) (h' : ClassLaysOut md pf info layout') :
    layout = layout' :=
  Answers.unique (classInstance_fueled md pf) h h'

theorem TypeLaysOut.unique {type : ILType} {layout layout' : InstanceLayout}
    (h : TypeLaysOut md pf type layout) (h' : TypeLaysOut md pf type layout') :
    layout = layout' :=
  Answers.unique (typeInstance_fueled md pf) h h'

theorem ParentLaysOut.unique {info : ClassId} {layout layout' : InstanceLayout}
    (h : ParentLaysOut md pf info layout) (h' : ParentLaysOut md pf info layout') :
    layout = layout' := by
  unfold ParentLaysOut at *
  cases hparent : md.parent info with
  | none =>
    rw [hparent] at h h'
    exact h.trans h'.symm
  | some parent =>
    rw [hparent] at h h'
    exact h.unique h'

theorem FieldsLayOut.unique {fields : List MemberId} {layouts layouts' : List InstanceLayout}
    (h : FieldsLayOut md pf fields layouts) (h' : FieldsLayOut md pf fields layouts') :
    layouts = layouts' := by
  induction h generalizing layouts' with
  | nil =>
    cases h'
    rfl
  | cons hf _ ih =>
    cases h' with
    | cons hf' hrest => rw [hf.unique hf', ih hrest]

/-! The layouts by their own rules, with the fuel out of sight. -/

theorem fieldsLayOut_iff {fields : List MemberId} {layouts : List InstanceLayout} :
    FieldsLayOut md pf fields layouts ↔
      ∃ fuel, fieldTypes md (typeInstance md pf fuel) fields = some layouts := by
  constructor
  · intro h
    induction h with
    | nil => exact ⟨0, rfl⟩
    | cons hf _ ih =>
      obtain ⟨fuel, hf⟩ := hf
      obtain ⟨fuel', ih⟩ := ih
      refine ⟨max fuel fuel', ?_⟩
      unfold fieldTypes
      simp only [(typeInstance_fueled md pf).le_max_left fuel fuel' _ _ hf]
      rw [fieldTypes_mono md ((typeInstance_fueled md pf).le_max_right fuel fuel') _ _ ih]
  · intro h
    obtain ⟨fuel, h⟩ := h
    induction fields generalizing layouts with
    | nil =>
      cases h
      exact .nil
    | cons f fields ih =>
      unfold fieldTypes at h
      split at h
      · rename_i layout rest hlayout hrest
        cases h
        exact .cons ⟨fuel, hlayout⟩ (ih hrest)
      · cases h

theorem parentLaysOut_iff {info : ClassId} {layout : InstanceLayout} :
    ParentLaysOut md pf info layout ↔
      ∃ fuel, parentInstance md (classInstance md pf fuel) info = some layout := by
  unfold ParentLaysOut parentInstance ClassLaysOut Answers
  cases md.parent info with
  | none =>
    constructor
    · intro h
      exact ⟨0, congrArg some h.symm⟩
    · rintro ⟨_, h⟩
      exact (Option.some.inj h).symm
  | some parent => exact Iff.rfl

theorem classLaysOut_iff {info : ClassId} {layout : InstanceLayout} :
    ClassLaysOut md pf info layout ↔
      ∃ parent options layouts, ParentLaysOut md pf info parent ∧
        layoutOptions md info = some options ∧
        FieldsLayOut md pf (instanceFields md info) layouts ∧
        layout = finishInstance options
          (placeFields md options (instanceFields md info) layouts { layout := parent }) := by
  constructor
  · rintro ⟨fuel, h⟩
    cases fuel with
    | zero => cases h
    | succ fuel =>
      unfold classInstance classInstanceStep at h
      split at h
      · rename_i parent options layouts hparent hoptions hlayouts
        exact ⟨parent, options, layouts, parentLaysOut_iff.2 ⟨fuel, hparent⟩, hoptions,
          fieldsLayOut_iff.2 ⟨fuel, hlayouts⟩, (Option.some.inj h).symm⟩
      · cases h
  · rintro ⟨parent, options, layouts, hparent, hoptions, hlayouts, hlayout⟩
    obtain ⟨fuel, hparent⟩ := parentLaysOut_iff.1 hparent
    obtain ⟨fuel', hlayouts⟩ := fieldsLayOut_iff.1 hlayouts
    refine ⟨max fuel fuel' + 1, ?_⟩
    unfold classInstance classInstanceStep
    rw [parentInstance_mono md ((classInstance_fueled md pf).le_max_left fuel fuel') _ _ hparent,
      hoptions,
      fieldTypes_mono md ((typeInstance_fueled md pf).le_max_right fuel fuel') _ _ hlayouts,
      hlayout]

theorem typeLaysOut_iff {type : ILType} {layout : InstanceLayout} :
    TypeLaysOut md pf type layout ↔
      match ilTypeStripPrefixes type with
      | .primitive elem => primitiveLayout pf elem = some layout
      | .valueType info =>
        match (md.cls info).synthetic with
        | none => ClassLaysOut md pf info layout
        | some synType => TypeLaysOut md pf (ilTypeStripPrefixes synType) layout
      | type => layout = pf.pointer.layout (ilTypeIsReference type) := by
  constructor
  · rintro ⟨fuel, h⟩
    cases fuel with
    | zero => cases h
    | succ fuel =>
      unfold typeInstance typeInstanceStep at h
      split at h
      · exact h
      · split at h
        · exact ⟨fuel, h⟩
        · exact ⟨fuel, h⟩
      · exact (Option.some.inj h).symm
  · intro h
    split at h
    · rename_i elem hstrip
      refine ⟨1, ?_⟩
      simp only [typeInstance, typeInstanceStep, hstrip]
      exact h
    · rename_i info hstrip
      split at h
      · rename_i hsyn
        obtain ⟨fuel, h⟩ := h
        refine ⟨fuel + 1, ?_⟩
        simp only [typeInstance, typeInstanceStep, hstrip, hsyn]
        exact h
      · rename_i synType hsyn
        obtain ⟨fuel, h⟩ := h
        refine ⟨fuel + 1, ?_⟩
        simp only [typeInstance, typeInstanceStep, hstrip, hsyn]
        exact h
    · rename_i hprim hval
      refine ⟨1, ?_⟩
      simp only [typeInstance, typeInstanceStep]
      exact congrArg some h.symm

/-! ### Offsets -/

variable (md) in
theorem instanceFields_nodup (info : ClassId) : (instanceFields md info).Nodup := by
  apply List.Nodup.filter
  apply List.Nodup.map _ List.nodup_range
  intro posn posn' h
  exact (MemberId.mk.inj h).2

theorem owner_of_mem_instanceFields {info : ClassId} {f : MemberId}
    (h : f ∈ instanceFields md info) : f.owner = info := by
  have hmem := (List.mem_filter.1 h).1
  obtain ⟨posn, _, hposn⟩ := List.mem_map.1 hmem
  rw [← hposn]

variable (md pf) in
/-- The offsets the metadata give to an instance field. The fields after it have
no say. -/
def Placed (f : MemberId) (offsets : ILUInt32 × ILUInt32) : Prop :=
  ∃ parent options pre post layouts layout,
    instanceFields md f.owner = pre ++ f :: post ∧
    ParentLaysOut md pf f.owner parent ∧
    layoutOptions md f.owner = some options ∧
    FieldsLayOut md pf pre layouts ∧
    TypeLaysOut md pf (md.field f).signature layout ∧
    offsets = (placeInstanceField md options f layout
      (placeFields md options pre layouts { layout := parent })).1

theorem Placed.unique {f : MemberId} {offsets offsets' : ILUInt32 × ILUInt32}
    (h : Placed md pf f offsets) (h' : Placed md pf f offsets') : offsets = offsets' := by
  obtain ⟨parent, options, pre, post, layouts, layout, hsplit, hparent, hoptions, hpre, hlayout,
    rfl⟩ := h
  obtain ⟨parent', options', pre', post', layouts', layout', hsplit', hparent', hoptions', hpre',
    hlayout', rfl⟩ := h'
  have hnodup := instanceFields_nodup md f.owner
  rw [hsplit] at hnodup hsplit'
  have hnotMem := List.nodup_middle.1 hnodup
  have hpreMem : f ∉ pre ++ post := (List.nodup_cons.1 hnotMem).1
  have hstarts : pre = pre' :=
    ((List.append_cons_inj_of_notMem (fun h => hpreMem (List.mem_append_left _ h))
      (fun h => hpreMem (List.mem_append_right _ h))).1 hsplit').1
  subst hstarts
  rw [hparent.unique hparent', hpre.unique hpre', hlayout.unique hlayout']
  rw [hoptions] at hoptions'
  rw [Option.some.inj hoptions']

end Pnet.Engine
