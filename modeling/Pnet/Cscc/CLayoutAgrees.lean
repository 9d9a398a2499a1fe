import Pnet.Cscc.CLayout
import Pnet.Engine.LayoutAlign
import Pnet.Engine.LayoutSound
import Pnet.Image.TypeIdentity

/-! The compile-time layout of a fixed C type against the engine's layout of its class. -/
namespace Pnet.Cscc
open Pnet.Image Pnet.Engine Pnet.Lib

/-! ### Alignment -/

theorem or_and_eq_zero (f g mask : ILUInt32) :
    (f ||| g) &&& mask = 0 ↔ f &&& mask = 0 ∧ g &&& mask = 0 := by
  rw [BitVec.and_or_distrib_right]
  exact BitVec.or_eq_zero_iff

/-- Flags that are added do not lower a known alignment. -/
theorem cTypeGetMaxAlign_le_or {f g : ILUInt32} (hg : cTypeGetMaxAlign g ≠ 0) :
    (cTypeGetMaxAlign f).toNat ≤ (cTypeGetMaxAlign (f ||| g)).toNat := by
  have hknown : g &&& CAlign.unknown = 0 := by
    by_contra h
    exact hg (if_pos h)
  simp only [cTypeGetMaxAlign, ne_eq, or_and_eq_zero, hknown, and_true]
  split_ifs <;> simp_all

theorem isPow_cTypeGetMaxAlign {f : ILUInt32} (hf : cTypeGetMaxAlign f ≠ 0) :
    IsPow (cTypeGetMaxAlign f) := by
  unfold cTypeGetMaxAlign at *
  split_ifs at * with h
  · exact absurd rfl hf
  · exact ⟨4, by decide, rfl⟩
  · exact isPow_eight
  · exact isPow_four
  · exact isPow_two
  · exact isPow_one

theorem cTypeGetMaxAlign_or_ne_zero {f g : ILUInt32} (hf : cTypeGetMaxAlign f ≠ 0)
    (hg : cTypeGetMaxAlign g ≠ 0) : cTypeGetMaxAlign (f ||| g) ≠ 0 := by
  intro hzero
  have hle := cTypeGetMaxAlign_le_or (f := f) hg
  have hpos := (isPow_cTypeGetMaxAlign hf).pos
  rw [hzero] at hle
  exact absurd (hpos.trans_le hle) (lt_irrefl 0)

/-- A multiple of a greater alignment is one of a smaller. -/
theorem umod_eq_zero_of_le {a b size : ILUInt32} (ha : IsPow a) (hb : IsPow b)
    (hle : a.toNat ≤ b.toNat) (hsize : size % b = 0) : size % a = 0 := by
  obtain ⟨k, -, hk⟩ := ha
  obtain ⟨n, -, hn⟩ := hb
  have hdvd : a.toNat ∣ b.toNat := by
    rw [hk, hn] at hle ⊢
    exact Nat.pow_dvd_pow 2 ((Nat.pow_le_pow_iff_right (a := 2) (by decide)).1 hle)
  rw [← BitVec.toNat_inj, BitVec.toNat_umod] at *
  exact Nat.mod_eq_zero_of_dvd (hdvd.trans (Nat.dvd_of_mod_eq_zero hsize))

theorem alignTo_eq_self {a size : ILUInt32} (h : size % a = 0) : alignTo size a = size :=
  if_neg (not_not.2 h)

/-! ### Fields -/

/-- The two layouts of a type with a fixed one. -/
structure Agrees (c : CTypeLayoutInfo) (layout : InstanceLayout) : Prop where
  size : layout.size = c.size
  nativeSize : layout.nativeSize = c.size
  nativeAlignment : layout.nativeAlignment = layout.alignment
  isPow : IsPow layout.alignment
  known : cTypeGetMaxAlign c.alignFlags ≠ 0
  alignment_le : layout.alignment.toNat ≤ (cTypeGetMaxAlign c.alignFlags).toNat
  aligned : c.size % cTypeGetMaxAlign c.alignFlags = 0

namespace FieldScan

variable {scan : FieldScan} {c : CTypeLayoutInfo} {isUnion : Bool}

/-- No field has been met without a fixed layout. -/
def Clean (scan : FieldScan) : Prop :=
  scan.noLayout = false ∧ scan.complex = false ∧ scan.dynamic = false

def extended (isUnion : Bool) (scan : FieldScan) (c : CTypeLayoutInfo) : FieldScan :=
  { scan with
    first := false
    alignFlags := scan.alignFlags ||| c.alignFlags
    size := if isUnion then
        if scan.first ∨ scan.size < c.size then c.size else scan.size
      else scan.size + c.size }

/-- What a field was like that left the scan clean. -/
theorem clean_addField (h : (scan.addField isUnion c).Clean) :
    scan.Clean ∧ c.category = .fixed ∧
      (isUnion = false → scan.size % cTypeGetMaxAlign c.alignFlags = 0) ∧
      scan.addField isUnion c = scan.extended isUnion c := by
  unfold addField Clean at *
  cases hcategory : c.category with
  | noLayout => simp [hcategory] at h
  | complex => simp [hcategory] at h
  | dynamic => simp [hcategory] at h
  | fixed =>
    simp only [hcategory] at h ⊢
    split_ifs at h ⊢ with halign hunion hfirst hmod
    · simp at h
    · exact ⟨h, trivial, by simp [hunion], by simp [extended, hunion, hfirst]⟩
    · exact ⟨h, trivial, by simp [hunion], by simp [extended, hunion, hfirst]⟩
    · simp at h
    · exact ⟨h, trivial, fun _ => not_not.1 hmod, by simp [extended, hunion]⟩

theorem clean_foldl {cs : List CTypeLayoutInfo} (h : (cs.foldl (addField isUnion) scan).Clean) :
    scan.Clean := by
  induction cs generalizing scan with
  | nil => exact h
  | cons c cs ih => exact (clean_addField (ih h)).1

theorem category_of_clean_foldl {cs : List CTypeLayoutInfo}
    (h : (cs.foldl (addField isUnion) scan).Clean) : ∀ c ∈ cs, c.category = .fixed := by
  induction cs generalizing scan with
  | nil => exact nofun
  | cons c cs ih =>
    intro c' hc'
    cases List.mem_cons.1 hc' with
    | inl heq => exact heq ▸ (clean_addField (clean_foldl h)).2.1
    | inr hmem => exact ih h c' hmem

theorem first_addField : (scan.addField isUnion c).first = false := by
  unfold addField
  cases c.category with
  | fixed =>
    dsimp only
    split_ifs <;> rfl
  | _ => rfl

theorem first_foldl {cs : List CTypeLayoutInfo} (hcs : cs ≠ []) :
    (cs.foldl (addField isUnion) scan).first = false := by
  induction cs generalizing scan with
  | nil => exact absurd rfl hcs
  | cons c cs ih =>
    cases cs with
    | nil => exact first_addField
    | cons c' cs => exact ih (List.cons_ne_nil c' cs)

/-- A fixed layout comes of a clean scan. -/
theorem finish_fixed {type : ILType} (hfirst : scan.first = false)
    (h : (scan.finish type).category = .fixed) :
    scan.Clean ∧ cTypeGetMaxAlign scan.alignFlags ≠ 0 ∧
      scan.size % cTypeGetMaxAlign scan.alignFlags = 0 ∧
      scan.finish type = ⟨.fixed, scan.size, scan.alignFlags, type⟩ := by
  unfold finish Clean at *
  simp only [hfirst, Bool.false_eq_true, if_false] at h ⊢
  split_ifs at h ⊢ with hno hcomplex hdynamic
  simp only [Bool.or_eq_true, beq_iff_eq, bne_iff_ne, not_or, not_not,
    Bool.not_eq_true] at hno hcomplex hdynamic
  exact ⟨⟨hno, hcomplex, hdynamic.1.1⟩, hdynamic.1.2, hdynamic.2, rfl⟩

end FieldScan

/-- The compiler's scan and the engine's placing of the same fields. -/
structure Follows (scan : FieldScan) (placing : Placing) : Prop where
  size : placing.layout.size = scan.size
  nativeSize : placing.layout.nativeSize = scan.size
  maxNativeAlignment : placing.maxNativeAlignment = placing.maxAlignment
  isPow : IsPow placing.maxAlignment
  known : cTypeGetMaxAlign scan.alignFlags ≠ 0
  alignment_le : placing.maxAlignment.toNat ≤ (cTypeGetMaxAlign scan.alignFlags).toNat
  first : scan.first = true → scan.size = 0

theorem follows_start : Follows {} { layout := rootLayout } where
  size := rfl
  nativeSize := rfl
  maxNativeAlignment := rfl
  isPow := isPow_one
  known := by decide
  alignment_le := by decide
  first _ := rfl

section Fields

variable {scan : FieldScan} {placing : Placing} {c : CTypeLayoutInfo} {layout : InstanceLayout}
variable {isUnion : Bool} {md : Metadata} {options : LayoutOptions}

/-- Where a field goes and what size is reached, when there is no gap before it. -/
theorem placeField_snd {alignment size total : ILUInt32}
    (hstart : isUnion = false → total % alignment = 0)
    {fieldLayout : Option ILUInt32} (hplace : fieldLayout = if isUnion then some 0 else none) :
    (placeField fieldLayout size alignment total).2 =
      if isUnion then if total < size then size else total else total + size := by
  subst hplace
  cases isUnion with
  | true => simp [placeField]
  | false => simp [placeField, alignTo_eq_self (hstart rfl)]

theorem Follows.addField (h : Follows scan placing) (hagrees : Agrees c layout)
    (hclean : (scan.addField isUnion c).Clean) (hpack : options.packingSize = 0) {f : MemberId}
    (hplace : options.fieldLayout md f = if isUnion then some 0 else none) :
    Follows (scan.addField isUnion c) (placeInstanceField md options f layout placing).2 := by
  obtain ⟨-, -, hstart, heq⟩ := FieldScan.clean_addField hclean
  have haligned : isUnion = false → scan.size % layout.alignment = 0 := fun hunion =>
    umod_eq_zero_of_le hagrees.isPow (isPow_cTypeGetMaxAlign hagrees.known) hagrees.alignment_le
      (hstart hunion)
  have hnopack : ∀ alignment, packAlignment options.packingSize alignment = alignment := by
    intro alignment
    rw [packAlignment, if_neg fun h => h.1 hpack]
  have hsize : (if isUnion = true then if scan.size < c.size then c.size else scan.size
      else scan.size + c.size) = (scan.extended isUnion c).size := by
    cases isUnion with
    | false => rfl
    | true =>
      by_cases hfirst : scan.first = true
      · have hzero := h.first hfirst
        simp only [FieldScan.extended, hfirst, hzero, true_or, if_true]
        split_ifs with hlt
        · rfl
        · exact (BitVec.le_zero_iff.1 (BitVec.not_lt.1 hlt)).symm
      · simp [FieldScan.extended, hfirst]
  rw [heq]
  unfold placeInstanceField
  constructor
  · simp only [hnopack, hagrees.size, h.size]
    rw [placeField_snd haligned hplace, hsize]
  · simp only [hnopack, hagrees.nativeSize, hagrees.nativeAlignment, h.nativeSize]
    rw [placeField_snd haligned hplace, hsize]
  · simp only [hnopack, hagrees.nativeAlignment, h.maxNativeAlignment]
  · simp only [hnopack]
    exact h.isPow.maxAlign hagrees.isPow
  · exact cTypeGetMaxAlign_or_ne_zero h.known hagrees.known
  · simp only [hnopack, toNat_maxAlign]
    have hscan := h.alignment_le.trans
      (cTypeGetMaxAlign_le_or (f := scan.alignFlags) hagrees.known)
    have hfield := hagrees.alignment_le.trans
      (cTypeGetMaxAlign_le_or (f := c.alignFlags) h.known)
    rw [BitVec.or_comm] at hfield
    exact max_le hscan hfield
  · exact fun hfirst => nomatch hfirst

theorem Follows.addFields (h : Follows scan placing) {fs : List MemberId}
    {cs : List CTypeLayoutInfo} {layouts : List InstanceLayout}
    (hagree : List.Forall₂ Agrees cs layouts) (hlength : fs.length = cs.length)
    (hclean : (cs.foldl (FieldScan.addField isUnion) scan).Clean)
    (hpack : options.packingSize = 0)
    (hplace : ∀ f ∈ fs, options.fieldLayout md f = if isUnion then some 0 else none) :
    Follows (cs.foldl (FieldScan.addField isUnion) scan)
      (placeFields md options fs layouts placing) := by
  induction hagree generalizing scan placing fs with
  | nil =>
    cases List.length_eq_zero_iff.1 hlength
    exact h
  | @cons c layout cs layouts hagrees _ ih =>
    cases fs with
    | nil => cases hlength
    | cons f fs =>
      have hfirst := h.addField hagrees (FieldScan.clean_foldl hclean) hpack
        (hplace f (List.mem_cons_self ..))
      exact ih hfirst (Nat.succ.inj hlength) hclean
        fun f hf => hplace f (List.mem_cons_of_mem _ hf)

end Fields

/-! ### Programs -/

def CField.toField (field : CField) : ILField where
  signature := field.signature
  isStatic := field.isStatic
  isLiteral := field.isLiteral
  fieldLayout := field.fieldLayout

/-- The class as the engine finds it in the image. -/
def CClass.toClass (c : CClass) (parent : ClassId) (image : Nat) : ILClass where
  parent := some parent
  image := image
  isExplicitLayout := c.isExplicitLayout
  classLayout := c.classSize.map fun size => ⟨0, size⟩
  fields := c.fields.map CField.toField

/-- What is in the types of a program, as the compiler makes them: the fields of a union lie at
its start, an enumeration has one field, and an array was made of an element type that is
complete. -/
structure CProgram.WellFormed (p : CProgram) : Prop where
  struct : ∀ info, (p.cls info).kind = some .struct → (p.cls info).isExplicitLayout = false
  union : ∀ info, (p.cls info).kind = some .union → (p.cls info).isExplicitLayout = true ∧
    (p.cls info).classSize = none ∧
    ∀ field ∈ (p.cls info).instanceFields, field.fieldLayout = some 0
  enum : ∀ info, (p.cls info).isEnum = true → (p.cls info).isExplicitLayout = false ∧
    ∃ field elem, (p.cls info).instanceFields = [field] ∧ field.isRTSpecialName = true ∧
      field.signature = .primitive elem
  enumTag : ∀ info, (p.cls info).kind = some .enum → (p.cls info).isEnum = true ∨
    (p.cls info).isRef = true
  array : ∀ info, (p.cls info).isArray = true →
    ∃ name elemType layout size sizeNode isOpen constantNode,
      newArrayClass name elemType layout size sizeNode isOpen constantNode = some (p.cls info) ∧
      ∀ fuel layout', p.cTypeGetLayoutInfo fuel elemType = some layout' → layout' = layout

/-- The sizes of the numeric types, and the most that a C compiler aligns them to. -/
structure CPlatform (pf : Platform) : Prop where
  int64 : pf.int64.size = 8 ∧ pf.int64.alignment.toNat ≤ 8
  float32 : pf.float32.size = 4 ∧ pf.float32.alignment.toNat ≤ 4
  float64 : pf.float64.size = 8 ∧ pf.float64.alignment.toNat ≤ 8

/-- The engine has loaded the program's image as a trusted one; `System.ValueType` and
`System.Enum` have no instance fields. -/
structure Loaded (p : CProgram) (md : Metadata) (pf : Platform) (image : Nat) : Prop where
  cls : ∀ info < p.classes.length, ∃ parent, md.cls info = (p.cls info).toClass parent image ∧
    ClassLaysOut md pf parent rootLayout
  secure : md.imageIsSecure image = true

/-- The types that a type is made of. -/
inductive CProgram.Within (p : CProgram) : ILType → ILType → Prop where
  | self (type : ILType) : Within p type type
  | field {type inner : ILType} {info : ClassId} {field : CField} :
    ilTypeStripPrefixes type = .valueType info → field ∈ (p.cls info).instanceFields →
    Within p field.signature inner → Within p type inner

/-- A structure or union without members, or `void`. -/
def CProgram.IsEmpty (p : CProgram) (type : ILType) : Prop :=
  match ilTypeStripPrefixes type with
  | .primitive elem => elem = ElemType.void
  | .valueType info => ((p.cls info).kind = some .struct ∨ (p.cls info).kind = some .union) ∧
    (p.cls info).instanceFields = []
  | _ => False

/-! ### One class -/

/-- What each pair of two lists has in common. -/
theorem forall₂_exists {α β γ : Type} {P : α → γ → Prop} {Q : β → γ → Prop} {as : List α}
    {bs : List β} (h : List.Forall₂ (fun a b => ∃ x, P a x ∧ Q b x) as bs) :
    ∃ xs, List.Forall₂ P as xs ∧ List.Forall₂ Q bs xs := by
  induction h with
  | nil => exact ⟨[], .nil, .nil⟩
  | cons hhead _ ih =>
    obtain ⟨x, hp, hq⟩ := hhead
    obtain ⟨xs, hps, hqs⟩ := ih
    exact ⟨x :: xs, .cons hp hps, .cons hq hqs⟩

theorem nativeAlignment_placeFields {md : Metadata} (options : LayoutOptions)
    (fields : List MemberId) (layouts : List InstanceLayout) (placing : Placing) :
    (placeFields md options fields layouts placing).layout.nativeAlignment =
      placing.layout.nativeAlignment := by
  induction fields generalizing layouts placing with
  | nil => rfl
  | cons f fields ih =>
    cases layouts with
    | nil => rfl
    | cons layout layouts => exact ih layouts _

section Class

variable {md : Metadata} {pf : Platform} {info parent : ClassId} {image : Nat} {cl : CClass}

theorem map_field_instanceFields (hcls : md.cls info = cl.toClass parent image) :
    (instanceFields md info).map md.field = cl.instanceFields.map CField.toField := by
  have hfields : (md.fields info).map md.field = cl.fields.map CField.toField := by
    have hlist : (md.cls info).fields = cl.fields.map CField.toField := by rw [hcls, CClass.toClass]
    unfold Metadata.fields
    rw [← hlist, List.map_map]
    apply List.ext_getElem
    · rw [List.length_map, List.length_range]
    · intro posn hposn hposn'
      simp [Metadata.field, hposn']
  have hfilter : instanceFields md info =
      (md.fields info).filter ((fun field : ILField => !field.isStatic) ∘ md.field) := rfl
  rw [hfilter, ← List.filter_map, hfields, List.filter_map]
  rfl

variable {options : LayoutOptions} {isUnion : Bool} {cs : List CTypeLayoutInfo}

/-- The layout of a class whose fields agree. -/
theorem classLaysOut_of_agrees (hcls : md.cls info = cl.toClass parent image)
    (hparent : ClassLaysOut md pf parent rootLayout) (hoptions : layoutOptions md info = some options)
    (hpack : options.packingSize = 0)
    (hcs : List.Forall₂ (fun field c => ∃ layout, TypeLaysOut md pf field.signature layout ∧
      Agrees c layout) cl.instanceFields cs)
    (hplace : ∀ field ∈ cl.instanceFields,
      (if options.allowFieldLayout then field.fieldLayout else none) =
        if isUnion then some 0 else none)
    (hclean : (cs.foldl (FieldScan.addField isUnion) {}).Clean) :
    ∃ placing, Follows (cs.foldl (FieldScan.addField isUnion) {}) placing ∧
      placing.layout.alignment = 1 ∧ placing.layout.nativeAlignment = 1 ∧
      ClassLaysOut md pf info (finishInstance options placing) := by
  have hmap := map_field_instanceFields hcls
  obtain ⟨layouts, hlayouts, hagree⟩ := forall₂_exists hcs
  have hfields : FieldsLayOut md pf (instanceFields md info) layouts := by
    have hlay : List.Forall₂ (fun field layout => TypeLaysOut md pf field.signature layout)
        ((instanceFields md info).map md.field) layouts := by
      rw [hmap, List.forall₂_map_left_iff]
      exact hlayouts
    rw [List.forall₂_map_left_iff] at hlay
    exact hlay
  have hlength : (instanceFields md info).length = cs.length := by
    rw [← List.length_map (f := md.field), hmap, List.length_map, hcs.length_eq]
  have hplaced : ∀ f ∈ instanceFields md info,
      options.fieldLayout md f = if isUnion then some 0 else none := by
    intro f hf
    have hmem := List.mem_map_of_mem (f := md.field) hf
    rw [hmap] at hmem
    obtain ⟨field, hfield, heq⟩ := List.mem_map.1 hmem
    rw [LayoutOptions.fieldLayout, ← heq]
    exact hplace field hfield
  refine ⟨_, follows_start.addFields hagree hlength hclean hpack hplaced, ?_, ?_, ?_⟩
  · exact alignment_placeFields ..
  · exact nativeAlignment_placeFields ..
  · rw [classLaysOut_iff]
    refine ⟨rootLayout, options, layouts, ?_, hoptions, hfields, rfl⟩
    have hmember : md.parent info = some parent := by rw [Metadata.parent, hcls, CClass.toClass]
    unfold ParentLaysOut
    rw [hmember]
    exact hparent

/-- What comes of the fields when the class is finished. -/
theorem agrees_finishInstance {scan : FieldScan} {placing : Placing} {c : CTypeLayoutInfo}
    (h : Follows scan placing) (halign : placing.layout.alignment = 1)
    (hnative : placing.layout.nativeAlignment = 1) (hflags : c.alignFlags = scan.alignFlags)
    (hsize : c.size = if scan.size < options.explicitSize then options.explicitSize
      else scan.size)
    (haligned : c.size % cTypeGetMaxAlign c.alignFlags = 0) :
    Agrees c (finishInstance options placing) := by
  have hone : maxAlign 1 placing.maxAlignment = placing.maxAlignment := by
    have hpos := h.isPow.pos
    unfold maxAlign
    split_ifs with hlt
    · rfl
    · apply BitVec.eq_of_toNat_eq
      rw [BitVec.not_lt, BitVec.le_def] at hlt
      exact le_antisymm hpos hlt
  have hfinish : finishSize options.explicitSize scan.size placing.maxAlignment = c.size := by
    unfold finishSize
    split_ifs with hlt
    · rw [hsize, if_pos hlt]
    · rw [if_neg hlt] at hsize
      rw [hsize, hflags] at haligned
      rw [hsize, alignTo_eq_self]
      exact umod_eq_zero_of_le h.isPow (isPow_cTypeGetMaxAlign h.known) h.alignment_le haligned
  constructor
  · rw [finishInstance, halign, hone, h.size, hfinish]
  · simp only [finishInstance, hnative, h.maxNativeAlignment, hone, h.nativeSize, hfinish]
  · simp only [finishInstance, halign, hnative, h.maxNativeAlignment]
  · simp only [finishInstance, halign, hone]
    exact h.isPow
  · rw [hflags]
    exact h.known
  · simp only [finishInstance, halign, hone, hflags]
    exact h.alignment_le
  · exact haligned

end Class

/-! ### Types -/

section Types

variable {md : Metadata} {pf : Platform}

theorem agrees_scalarLayout {c : CTypeLayoutInfo} {alignment : ILUInt32} {managed : Bool}
    (hpow : IsPow alignment) (hknown : cTypeGetMaxAlign c.alignFlags ≠ 0)
    (hle : alignment.toNat ≤ (cTypeGetMaxAlign c.alignFlags).toNat)
    (haligned : c.size % cTypeGetMaxAlign c.alignFlags = 0) :
    Agrees c (scalarLayout c.size alignment managed) :=
  ⟨rfl, rfl, rfl, hpow, hknown, hle, haligned⟩

theorem agrees_primitive (hpf : CPlatform pf) {elem : Nat}
    (hfixed : (primitiveInfo elem).category = .fixed) (hvoid : elem ≠ ElemType.void) :
    ∃ layout, primitiveLayout pf elem = some layout ∧ Agrees (primitiveInfo elem) layout := by
  obtain ⟨⟨h8, h8'⟩, ⟨h4, h4'⟩, ⟨hd, hd'⟩⟩ := hpf
  unfold primitiveInfo at *
  split at *
  · exact absurd rfl hvoid
  · exact ⟨_, rfl, agrees_scalarLayout isPow_one (by decide) (by decide) (by decide)⟩
  · exact ⟨_, rfl, agrees_scalarLayout isPow_one (by decide) (by decide) (by decide)⟩
  · exact ⟨_, rfl, agrees_scalarLayout isPow_one (by decide) (by decide) (by decide)⟩
  · exact ⟨_, rfl, agrees_scalarLayout isPow_two (by decide) (by decide) (by decide)⟩
  · exact ⟨_, rfl, agrees_scalarLayout isPow_two (by decide) (by decide) (by decide)⟩
  · exact ⟨_, rfl, agrees_scalarLayout isPow_two (by decide) (by decide) (by decide)⟩
  · exact ⟨_, rfl, agrees_scalarLayout isPow_four (by decide) (by decide) (by decide)⟩
  · exact ⟨_, rfl, agrees_scalarLayout isPow_four (by decide) (by decide) (by decide)⟩
  · refine ⟨pf.int64.layout false, rfl, ?_⟩
    rw [Extent.layout, h8]
    exact agrees_scalarLayout pf.int64.isPow (by decide) h8' (by decide)
  · refine ⟨pf.int64.layout false, rfl, ?_⟩
    rw [Extent.layout, h8]
    exact agrees_scalarLayout pf.int64.isPow (by decide) h8' (by decide)
  · cases hfixed
  · cases hfixed
  · refine ⟨pf.float32.layout false, rfl, ?_⟩
    rw [Extent.layout, h4]
    exact agrees_scalarLayout pf.float32.isPow (by decide) h4' (by decide)
  · refine ⟨pf.float64.layout false, rfl, ?_⟩
    rw [Extent.layout, hd]
    exact agrees_scalarLayout pf.float64.isPow (by decide) hd' (by decide)
  · cases hfixed
  · cases hfixed
  · cases hfixed

/-! The four kinds of classes. `hfields` is what is known of the types of the fields. -/

variable {p : CProgram} {image : Nat} {info : ClassId} {type : ILType}
variable {layoutInfo : ILType → Option CTypeLayoutInfo} {c : CTypeLayoutInfo}

/-- The types that have been found to agree. -/
def FieldsAgree (md : Metadata) (pf : Platform) (layoutInfo : ILType → Option CTypeLayoutInfo)
    (fields : List CField) : Prop :=
  ∀ field ∈ fields, ∀ c, layoutInfo field.signature = some c → c.category = .fixed →
    ∃ layout, TypeLaysOut md pf field.signature layout ∧ Agrees c layout

theorem FieldsAgree.forall₂ {fields : List CField} (h : FieldsAgree md pf layoutInfo fields)
    {cs : List CTypeLayoutInfo} (hcs : (fields.map CField.signature).mapM layoutInfo = some cs)
    (hfixed : ∀ c ∈ cs, c.category = .fixed) :
    List.Forall₂ (fun field c => ∃ layout, TypeLaysOut md pf field.signature layout ∧
      Agrees c layout) fields cs := by
  have hlist := forall₂_of_mapM hcs
  rw [List.forall₂_map_left_iff] at hlist
  clear hcs
  induction hlist with
  | nil => exact .nil
  | @cons field c fields cs hhead _ ih =>
    have hagree := h field (List.mem_cons_self ..) c hhead (hfixed c (List.mem_cons_self ..))
    exact .cons hagree (ih (fun f hf => h f (List.mem_cons_of_mem _ hf))
      fun c hc => hfixed c (List.mem_cons_of_mem _ hc))

theorem agrees_structOrUnion {isUnion : Bool} {options : LayoutOptions} {parent : ClassId}
    (hcls : md.cls info = (p.cls info).toClass parent image)
    (hparent : ClassLaysOut md pf parent rootLayout)
    (hoptions : layoutOptions md info = some options) (hpack : options.packingSize = 0)
    (hsize : options.explicitSize = 0)
    (hplace : ∀ field ∈ (p.cls info).instanceFields,
      (if options.allowFieldLayout then field.fieldLayout else none) =
        if isUnion then some 0 else none)
    (hc : p.structOrUnionLayout layoutInfo type info isUnion = some c)
    (hfixed : c.category = .fixed) (hfull : (p.cls info).instanceFields ≠ [])
    (hfields : FieldsAgree md pf layoutInfo (p.cls info).instanceFields) :
    ∃ layout, ClassLaysOut md pf info layout ∧ Agrees c layout := by
  unfold CProgram.structOrUnionLayout at hc
  split_ifs at hc with hdefined
  · cases hc
    cases hfixed
  · obtain ⟨cs, hcs, hc⟩ := Option.bind_eq_some_iff.1 hc
    cases hc
    have hne : cs ≠ [] := by
      intro hnil
      have hlength := (forall₂_of_mapM hcs).length_eq
      rw [hnil, List.length_map] at hlength
      exact hfull (List.length_eq_zero_iff.1 hlength)
    obtain ⟨hclean, -, haligned, hfinish⟩ :=
      FieldScan.finish_fixed (FieldScan.first_foldl hne) hfixed
    have hagree := hfields.forall₂ hcs (FieldScan.category_of_clean_foldl hclean)
    obtain ⟨placing, hfollows, halign, hnative, hlays⟩ :=
      classLaysOut_of_agrees hcls hparent hoptions hpack hagree hplace hclean
    refine ⟨_, hlays, ?_⟩
    rw [hfinish]
    apply agrees_finishInstance hfollows halign hnative rfl
    · have hzero : ¬(cs.foldl (FieldScan.addField isUnion) {}).size < 0 := BitVec.not_lt_zero
      rw [hsize, if_neg hzero]
    · exact haligned

theorem layoutOptions_sequential {parent : ClassId}
    (hcls : md.cls info = (p.cls info).toClass parent image)
    (hexplicit : (p.cls info).isExplicitLayout = false) : layoutOptions md info = some {} := by
  have huses : usesFieldLayout md info = false := by
    rw [usesFieldLayout, hcls, CClass.toClass, hexplicit, Bool.false_and]
  rw [layoutOptions, huses]
  rfl

theorem layoutOptions_explicit {parent : ClassId}
    (hcls : md.cls info = (p.cls info).toClass parent image)
    (hsecure : md.imageIsSecure image = true)
    (hexplicit : (p.cls info).isExplicitLayout = true) :
    layoutOptions md info = some ⟨0, (p.cls info).classSize.getD 0, true⟩ := by
  have huses : usesFieldLayout md info = true := by
    rw [usesFieldLayout, hcls, CClass.toClass, hexplicit, hsecure, Bool.and_self]
  rw [layoutOptions, huses, if_pos rfl, hcls, CClass.toClass]
  cases (p.cls info).classSize with
  | none => rfl
  | some size => rfl

/-- One field of a fixed type, at the start. -/
theorem clean_single {isUnion : Bool} (hfixed : c.category = .fixed)
    (hknown : cTypeGetMaxAlign c.alignFlags ≠ 0) :
    ([c].foldl (FieldScan.addField isUnion) {}).Clean ∧
      ([c].foldl (FieldScan.addField isUnion) {}).size = c.size ∧
      ([c].foldl (FieldScan.addField isUnion) {}).alignFlags = c.alignFlags := by
  have hzero : (0 : ILUInt32) % cTypeGetMaxAlign c.alignFlags = 0 := BitVec.zero_umod
  have hzero' : (0 : ILUInt32) ||| c.alignFlags = c.alignFlags := BitVec.zero_or
  have hzero'' : (0 : ILUInt32) + c.size = c.size := BitVec.zero_add _
  simp only [List.foldl_cons, List.foldl_nil, FieldScan.addField, hfixed, if_neg hknown, hzero,
    hzero', hzero'', true_or, if_true, ne_eq, not_true_eq_false, if_false]
  cases isUnion <;> exact ⟨⟨rfl, rfl, rfl⟩, rfl, rfl⟩

theorem agrees_enum {parent : ClassId} (hcls : md.cls info = (p.cls info).toClass parent image)
    (hparent : ClassLaysOut md pf parent rootLayout)
    (hexplicit : (p.cls info).isExplicitLayout = false) {field : CField}
    (hfield : (p.cls info).instanceFields = [field]) {layout : InstanceLayout}
    (hlays : TypeLaysOut md pf field.signature layout) (hagrees : Agrees c layout)
    (hfixed : c.category = .fixed) :
    ∃ layout, ClassLaysOut md pf info layout ∧ Agrees c layout := by
  obtain ⟨hclean, hsize, hflags⟩ := @clean_single c false hfixed hagrees.known
  have hcs : List.Forall₂ (fun field c => ∃ layout, TypeLaysOut md pf field.signature layout ∧
      Agrees c layout) (p.cls info).instanceFields [c] := by
    rw [hfield]
    exact .cons ⟨layout, hlays, hagrees⟩ .nil
  obtain ⟨placing, hfollows, halign, hnative, hclass⟩ :=
    classLaysOut_of_agrees hcls hparent (layoutOptions_sequential hcls hexplicit) rfl hcs
      (fun _ _ => rfl) hclean
  refine ⟨_, hclass, agrees_finishInstance hfollows halign hnative hflags.symm ?_ hagrees.aligned⟩
  have hzero : ¬c.size < 0 := BitVec.not_lt_zero
  rw [hsize, if_neg hzero]

/-- What the class of an array has, when its size is in the metadata. -/
theorem newArrayClass_classSize {name : List ILUInt8} {elemType : ILType}
    {elem : CTypeLayoutInfo} {size total : ILUInt32} {sizeNode : Option SizeNode} {isOpen : Bool}
    {constantNode : ILUInt32 → SizeNode} {cl : CClass}
    (h : newArrayClass name elemType elem size sizeNode isOpen constantNode = some cl)
    (htotal : cl.classSize = some total) :
    total = elem.size * size ∧ size ≠ 0 ∧ elem.size.toNat * size.toNat < 2 ^ 31 ∧
      cl.isExplicitLayout = true ∧
      cl.instanceFields = [{
        name := chars "elem__", signature := elemType, fieldLayout := some 0 }] := by
  simp only [newArrayClass] at h
  split at h
  · cases h
  · split at h
    · cases h
    · rename_i hlarge
      cases h
      cases hneed : needClassLayout elem size sizeNode isOpen with
      | false =>
        rw [hneed] at htotal
        cases htotal
      | true =>
        rw [hneed] at htotal hlarge
        simp only [needClassLayout, Bool.and_eq_true, Bool.not_eq_true', bne_iff_ne] at hneed
        have hopen := hneed.1.2
        subst hopen
        have hfits : elem.size.toNat * size.toNat ≤ 2 ^ 31 - 1 := by
          simpa [arrayTooLarge] using hlarge
        exact ⟨(Option.some.inj htotal).symm, hneed.2, Nat.lt_of_le_pred (by decide) hfits, rfl,
          rfl⟩

theorem newArrayClass_field {name : List ILUInt8} {elemType : ILType}
    {elem : CTypeLayoutInfo} {size : ILUInt32} {sizeNode : Option SizeNode} {isOpen : Bool}
    {constantNode : ILUInt32 → SizeNode} {cl : CClass}
    (h : newArrayClass name elemType elem size sizeNode isOpen constantNode = some cl) :
    ∃ field, cl.findArrayElemField = some field ∧ field.signature = elemType := by
  simp only [newArrayClass] at h
  split at h
  · cases h
  · split at h
    · cases h
    · cases h
      exact ⟨_, rfl, rfl⟩

theorem agrees_array {parent : ClassId} (hcls : md.cls info = (p.cls info).toClass parent image)
    (hparent : ClassLaysOut md pf parent rootLayout) (hsecure : md.imageIsSecure image = true)
    {field : CField} {size total : ILUInt32} {elem : CTypeLayoutInfo}
    (hexplicit : (p.cls info).isExplicitLayout = true)
    (htotal : (p.cls info).classSize = some total)
    (hfield : (p.cls info).instanceFields = [field]) (hplace : field.fieldLayout = some 0)
    (hsize : total = elem.size * size) (hne : size ≠ 0)
    (hfits : elem.size.toNat * size.toNat < 2 ^ 31) (hfixed : elem.category = .fixed)
    {layout : InstanceLayout} (hlays : TypeLaysOut md pf field.signature layout)
    (hagrees : Agrees elem layout) (hflags : c.alignFlags = elem.alignFlags)
    (hc : c.size = total) :
    ∃ layout, ClassLaysOut md pf info layout ∧ Agrees c layout := by
  obtain ⟨hclean, hscan, hscanFlags⟩ := @clean_single elem true hfixed hagrees.known
  have hcs : List.Forall₂ (fun field c => ∃ layout, TypeLaysOut md pf field.signature layout ∧
      Agrees c layout) (p.cls info).instanceFields [elem] := by
    rw [hfield]
    exact .cons ⟨layout, hlays, hagrees⟩ .nil
  have hoptions := layoutOptions_explicit hcls hsecure hexplicit
  rw [htotal, Option.getD_some] at hoptions
  have hstart : ∀ f ∈ (p.cls info).instanceFields,
      (if (⟨0, total, true⟩ : LayoutOptions).allowFieldLayout then f.fieldLayout else none) =
        if true then some 0 else none := by
    intro f hf
    rw [hfield, List.mem_singleton] at hf
    rw [hf]
    exact hplace
  obtain ⟨placing, hfollows, halign, hnative, hclass⟩ :=
    classLaysOut_of_agrees hcls hparent hoptions rfl hcs hstart hclean
  have hproduct : total.toNat = elem.size.toNat * size.toNat := by
    rw [hsize, BitVec.toNat_mul, Nat.mod_eq_of_lt (by omega)]
  have hpos : 0 < size.toNat := by
    rw [Nat.pos_iff_ne_zero]
    exact fun hzero => hne (BitVec.eq_of_toNat_eq hzero)
  refine ⟨_, hclass, agrees_finishInstance hfollows halign hnative (hflags.trans hscanFlags.symm)
    ?_ ?_⟩
  · rw [hc, hscan]
    split_ifs with hlt
    · rfl
    · apply BitVec.eq_of_toNat_eq
      rw [BitVec.not_lt, BitVec.le_def] at hlt
      exact le_antisymm hlt (hproduct ▸ Nat.le_mul_of_pos_right _ hpos)
  · have haligned := hagrees.aligned
    rw [hc, hflags]
    rw [← BitVec.toNat_inj, BitVec.toNat_umod] at haligned ⊢
    rw [hproduct]
    exact Nat.mod_eq_zero_of_dvd ((Nat.dvd_of_mod_eq_zero haligned).mul_right _)

/-! ### Every fixed type -/

theorem cTypeGetLayoutInfo_strip (fuel : Nat) (type : ILType) :
    p.cTypeGetLayoutInfo fuel (ilTypeStripPrefixes type) = p.cTypeGetLayoutInfo fuel type := by
  cases fuel with
  | zero => rfl
  | succ fuel =>
    unfold CProgram.cTypeGetLayoutInfo
    rw [ilTypeStripPrefixes_eq_self (isPrefix_ilTypeStripPrefixes type)]

theorem typeLaysOut_valueType (hsyn : (md.cls info).synthetic = none)
    (hstrip : ilTypeStripPrefixes type = .valueType info) {layout : InstanceLayout} :
    TypeLaysOut md pf type layout ↔ ClassLaysOut md pf info layout := by
  rw [typeLaysOut_iff, hstrip]
  simp only [hsyn]

/-- The elements of an array are of the type of its field. -/
theorem layoutInfo_elem {field : CField} (harray : (p.cls info).isArray = true)
    (hfind : (p.cls info).findArrayElemField = some field) (fuel : Nat) :
    p.cTypeGetLayoutInfo fuel (p.cTypeGetElemType (.valueType info)) =
      p.cTypeGetLayoutInfo fuel field.signature := by
  have hclass : p.valueClass (.valueType info) = some (p.cls info) := rfl
  simp only [CProgram.cTypeGetElemType, hclass, harray, if_true, hfind]
  split_ifs
  · rfl
  · exact cTypeGetLayoutInfo_strip fuel field.signature

/-- A value type that is not of the program is foreign, and not fixed. -/
theorem lt_length_of_fixed (hc : p.valueTypeInfo layoutInfo info = some c)
    (hfixed : c.category = .fixed) : info < p.classes.length := by
  by_contra hge
  have hnone : p.cls info = { name := [] } := by
    rw [CProgram.cls, List.getD_eq_getElem?_getD, List.getElem?_eq_none (Nat.le_of_not_lt hge)]
    rfl
  have hforeign : p.valueTypeInfo layoutInfo info =
      some ⟨.dynamic, ctypeDynamic, CAlign.unknown, .valueType info⟩ := by
    simp only [CProgram.valueTypeInfo, CProgram.cTypeIsEnum, CProgram.cTypeIsStruct,
      CProgram.cTypeIsUnion, CProgram.cTypeIsArray, CProgram.cTypeIsOpenArray,
      CProgram.valueClass, ilTypeStripPrefixes, hnone]
    rfl
  rw [hforeign] at hc
  cases hc
  cases hfixed

theorem agrees_valueType (hp : p.WellFormed) (hload : Loaded p md pf image) {fuel : Nat}
    (hc : p.valueTypeInfo (p.cTypeGetLayoutInfo fuel) info = some c)
    (hfixed : c.category = .fixed)
    (hself : ¬(((p.cls info).kind = some .struct ∨ (p.cls info).kind = some .union) ∧
      (p.cls info).instanceFields = []))
    (hfields : FieldsAgree md pf (p.cTypeGetLayoutInfo fuel) (p.cls info).instanceFields) :
    ∃ layout, ClassLaysOut md pf info layout ∧ Agrees c layout := by
  obtain ⟨parent, hcls, hparent⟩ := hload.cls info (lt_length_of_fixed hc hfixed)
  simp only [CProgram.valueTypeInfo] at hc
  split_ifs at hc with henum hdefined hstruct hunion hopen harray
  · have hdef : (p.cls info).isRef = false := by simpa [CProgram.cTypeAlreadyDefined] using hdefined
    have hkind : (p.cls info).isEnum = true := by
      simp only [CProgram.cTypeIsEnum, CProgram.valueClass, ilTypeStripPrefixes, Option.any_some,
        Bool.or_eq_true, beq_iff_eq] at henum
      exact henum.elim (fun htag => (hp.enumTag info htag).resolve_right (by simp [hdef])) id
    obtain ⟨hexplicit, field, elem, hfield, hspecial, hsignature⟩ := hp.enum info hkind
    have htype : p.ilTypeGetEnumType (.valueType info) = field.signature := by
      simp [CProgram.ilTypeGetEnumType, hkind, hfield, hspecial, hsignature, ilTypeStripPrefixes]
    rw [htype] at hc
    obtain ⟨layout, hlays, hagrees⟩ :=
      hfields field (hfield ▸ List.mem_singleton_self field) c hc hfixed
    exact agrees_enum hcls hparent hexplicit hfield hlays hagrees hfixed
  · cases hc
    cases hfixed
  · have hkind : (p.cls info).kind = some .struct := eq_of_beq hstruct
    refine agrees_structOrUnion hcls hparent (layoutOptions_sequential hcls (hp.struct info hkind))
      rfl rfl (fun _ _ => rfl) hc hfixed (fun hnil => hself ⟨.inl hkind, hnil⟩) hfields
  · have hkind : (p.cls info).kind = some .union := eq_of_beq hunion
    obtain ⟨hexplicit, hsize, hplace⟩ := hp.union info hkind
    have hoptions := layoutOptions_explicit hcls hload.secure hexplicit
    rw [hsize] at hoptions
    have hstart : ∀ field ∈ (p.cls info).instanceFields,
        (if (⟨0, 0, true⟩ : LayoutOptions).allowFieldLayout then field.fieldLayout else none) =
          if true then some 0 else none := hplace
    exact agrees_structOrUnion hcls hparent hoptions rfl rfl hstart hc hfixed
      (fun hnil => hself ⟨.inr hkind, hnil⟩) hfields
  · obtain ⟨elem, -, rfl⟩ := Option.map_eq_some_iff.1 hc
    cases hfixed
  · obtain ⟨elem, helem, rfl⟩ := Option.map_eq_some_iff.1 hc
    obtain ⟨name, elemType, layout, size, sizeNode, isOpen, constantNode, hnew, hlayout⟩ :=
      hp.array info harray
    obtain ⟨field, hfind, hsignature⟩ := newArrayClass_field hnew
    rw [layoutInfo_elem harray hfind, hsignature] at helem
    cases hlayout fuel elem helem
    unfold CProgram.arrayInfo at hfixed ⊢
    cases hcategory : elem.category with
    | noLayout => simp [hcategory] at hfixed
    | complex => simp [hcategory] at hfixed
    | dynamic => simp [hcategory] at hfixed
    | fixed =>
      cases htotal : (p.cls info).classSize with
      | none => simp [hcategory, htotal] at hfixed
      | some total =>
        obtain ⟨hsize, hne, hfits, hexplicit, hinstance⟩ := newArrayClass_classSize hnew htotal
        rw [hinstance] at hfields
        obtain ⟨layout, hlays, hagrees⟩ :=
          hfields _ (List.mem_singleton_self _) elem helem hcategory
        exact agrees_array hcls hparent hload.secure hexplicit htotal hinstance rfl hsize hne
          hfits hcategory hlays hagrees rfl rfl
  · cases hc
    cases hfixed

theorem agrees_of_fixed (hp : p.WellFormed) (hpf : CPlatform pf) (hload : Loaded p md pf image)
    (fuel : Nat) {type : ILType} {c : CTypeLayoutInfo}
    (hc : p.cTypeGetLayoutInfo fuel type = some c) (hfixed : c.category = .fixed)
    (hfull : ∀ inner, p.Within type inner → ¬p.IsEmpty inner) :
    ∃ layout, TypeLaysOut md pf type layout ∧ Agrees c layout := by
  induction fuel generalizing type c with
  | zero => cases hc
  | succ fuel ih =>
    unfold CProgram.cTypeGetLayoutInfo at hc
    have hself := hfull type (.self type)
    unfold CProgram.IsEmpty at hself
    split at hc
    · rename_i elem hstrip
      cases hc
      rw [hstrip] at hself
      obtain ⟨layout, hlayout, hagrees⟩ := agrees_primitive hpf hfixed hself
      refine ⟨layout, typeLaysOut_iff.2 ?_, hagrees⟩
      rw [hstrip]
      exact hlayout
    · rename_i info hstrip
      rw [hstrip] at hself
      have hfields : FieldsAgree md pf (p.cTypeGetLayoutInfo fuel) (p.cls info).instanceFields :=
        fun field hfield c hc hfixed =>
          ih hc hfixed fun inner hinner => hfull inner (.field hstrip hfield hinner)
      obtain ⟨layout, hlays, hagrees⟩ := agrees_valueType hp hload hc hfixed hself hfields
      obtain ⟨parent, hcls, -⟩ := hload.cls info (lt_length_of_fixed hc hfixed)
      have hsyn : (md.cls info).synthetic = none := by rw [hcls, CClass.toClass]
      exact ⟨layout, (typeLaysOut_valueType hsyn hstrip).2 hlays, hagrees⟩
    · cases hc
      cases hfixed

/-- The size of a fixed structure or union is what the engine computes for its class, and a
multiple of the engine's alignment and of the compiler's. -/
theorem layoutClass_eq_fixed (p : CProgram) (hp : p.WellFormed) (pf : Platform)
    (hpf : CPlatform pf) (md : Metadata) (image : Nat) (hload : Loaded p md pf image)
    (info : ClassId) (fuel : Nat) (c : CTypeLayoutInfo)
    (hc : p.cTypeGetLayoutInfo fuel (.valueType info) = some c) (hfixed : c.category = .fixed)
    (hfull : ∀ inner, p.Within (.valueType info) inner → ¬p.IsEmpty inner) :
    (∃ layout, ClassLaysOut md pf info layout) ∧
      c.size % cTypeGetMaxAlign c.alignFlags = 0 ∧
      (∀ layout, ClassLaysOut md pf info layout → layout.size = c.size ∧
        layout.nativeSize = c.size ∧ c.size % layout.alignment = 0) ∧
      ∀ s t fuel' layout, Reachable md pf s → layoutClass md pf fuel' info s = .ok layout t →
        layout.size = c.size ∧ layout.nativeSize = c.size := by
  obtain ⟨layout, hlays, hagrees⟩ := agrees_of_fixed hp hpf hload fuel hc hfixed hfull
  have hlt : info < p.classes.length := by
    cases fuel with
    | zero => cases hc
    | succ fuel => exact lt_length_of_fixed hc hfixed
  obtain ⟨parent, hcls, -⟩ := hload.cls info hlt
  have hsyn : (md.cls info).synthetic = none := by rw [hcls, CClass.toClass]
  have hclass := (typeLaysOut_valueType hsyn rfl).1 hlays
  refine ⟨⟨layout, hclass⟩, hagrees.aligned, ?_, ?_⟩
  · intro layout' hlayout'
    rw [hlayout'.unique hclass]
    have hmod := umod_eq_zero_of_le hagrees.isPow (isPow_cTypeGetMaxAlign hagrees.known)
      hagrees.alignment_le hagrees.aligned
    exact ⟨hagrees.size, hagrees.nativeSize, hmod⟩
  · intro s t fuel' layout' hs hrun
    have heq := (hs.refines hrun).laysOut.unique hclass
    rw [heq]
    exact ⟨hagrees.size, hagrees.nativeSize⟩

end Types

/-! ### A structure with an array, and types that differ -/

/-- `struct A { int x[3]; int y; }` -/
def arrayAndInt : CProgram where
  classes := [
    { name := chars "A"
      kind := some .struct
      fields := [{ name := chars "x", signature := .valueType 1 },
        { name := chars "y", signature := .primitive ElemType.i4 }] },
    { name := chars "array int[3]"
      isExplicitLayout := true
      classSize := some 12
      fields := [{
        name := chars "elem__", signature := .primitive ElemType.i4, fieldLayout := some 0 }] }]

/-- The image of a program with its `System.ValueType`. -/
def loadedWith (p : CProgram) (secure : Bool) : Metadata where
  classes := p.classes.map (fun c => c.toClass p.classes.length 0) ++ [{}]
  imageIsSecure _ := secure

theorem cls_arrayAndInt (info : ClassId) :
    info = 0 ∨ info = 1 ∨ arrayAndInt.cls info = { name := [] } := by
  match info with
  | 0 => exact .inl rfl
  | 1 => exact .inr (.inl rfl)
  | info + 2 => exact .inr (.inr rfl)

theorem wellFormed_arrayAndInt : arrayAndInt.WellFormed where
  struct info h := by
    rcases cls_arrayAndInt info with rfl | rfl | hnone
    · rfl
    · cases h
    · rw [hnone] at h
      cases h
  union info h := by
    rcases cls_arrayAndInt info with rfl | rfl | hnone
    · cases h
    · cases h
    · rw [hnone] at h
      cases h
  enum info h := by
    rcases cls_arrayAndInt info with rfl | rfl | hnone
    · cases h
    · cases h
    · rw [hnone] at h
      cases h
  enumTag info h := by
    rcases cls_arrayAndInt info with rfl | rfl | hnone
    · cases h
    · cases h
    · rw [hnone] at h
      cases h
  array info h := by
    rcases cls_arrayAndInt info with rfl | rfl | hnone
    · exact absurd h (by decide)
    · refine ⟨chars "array int[3]", .primitive ElemType.i4, primitiveInfo ElemType.i4, 3, none,
        false, fun size => ⟨[], some size⟩, rfl, ?_⟩
      intro fuel layout' hlayout
      cases fuel with
      | zero => cases hlayout
      | succ fuel => exact (Option.some.inj hlayout).symm
    · rw [hnone] at h
      exact absurd h (by decide)

theorem cPlatform_lp64 : CPlatform .lp64 where
  int64 := ⟨rfl, by decide⟩
  float32 := ⟨rfl, by decide⟩
  float64 := ⟨rfl, by decide⟩

theorem loaded_arrayAndInt : Loaded arrayAndInt (loadedWith arrayAndInt true) .lp64 0 where
  cls info hlt := by
    refine ⟨2, ?_, 1, rfl⟩
    match info, hlt with
    | 0, _ => rfl
    | 1, _ => rfl
  secure := rfl

theorem within_arrayAndInt {type inner : ILType} (h : arrayAndInt.Within type inner)
    (htype : type = .valueType 0 ∨ type = .valueType 1 ∨ type = .primitive ElemType.i4) :
    ¬arrayAndInt.IsEmpty inner := by
  induction h with
  | self type =>
    rcases htype with rfl | rfl | rfl
    · exact fun h => nomatch h.2
    · exact fun h => nomatch h.2
    · exact fun h => nomatch h
  | field hstrip hfield _ ih =>
    apply ih
    rcases htype with rfl | rfl | rfl
    · cases hstrip
      cases hfield with
      | head => exact .inr (.inl rfl)
      | tail _ hfield =>
        cases hfield with
        | head => exact .inr (.inr rfl)
        | tail _ hfield => cases hfield
    · cases hstrip
      cases hfield with
      | head => exact .inr (.inr rfl)
      | tail _ hfield => cases hfield
    · cases hstrip

/-- The structure has 16 bytes at both times. -/
theorem layoutClass_arrayAndInt :
    (∃ layout, ClassLaysOut (loadedWith arrayAndInt true) .lp64 0 layout) ∧
      (16 : ILUInt32) % 4 = 0 ∧
      (∀ layout, ClassLaysOut (loadedWith arrayAndInt true) .lp64 0 layout → layout.size = 16 ∧
        layout.nativeSize = 16 ∧ (16 : ILUInt32) % layout.alignment = 0) ∧
      ∀ s t fuel' layout, Reachable (loadedWith arrayAndInt true) .lp64 s →
        layoutClass (loadedWith arrayAndInt true) .lp64 fuel' 0 s = .ok layout t →
        layout.size = 16 ∧ layout.nativeSize = 16 :=
  layoutClass_eq_fixed arrayAndInt wellFormed_arrayAndInt .lp64 cPlatform_lp64
    (loadedWith arrayAndInt true) 0 loaded_arrayAndInt 0 4
    ⟨.fixed, 16, CAlign.int, .valueType 0⟩ rfl rfl
    (fun _ hinner => within_arrayAndInt hinner (.inl rfl))

/-- `struct E { }` -/
def emptyStruct : CProgram where
  classes := [{ name := chars "E", kind := some .struct }]

/-- `union U { int x; int y; }` -/
def twoInts : CProgram where
  classes := [{
    name := chars "U"
    kind := some .union
    isExplicitLayout := true
    fields := [
      { name := chars "x", signature := .primitive ElemType.i4, fieldLayout := some 0 },
      { name := chars "y", signature := .primitive ElemType.i4, fieldLayout := some 0 }] }]

/-- A structure without members has one byte at compile time and none at run time, and a union
is laid out as a structure when its image is not trusted. -/
theorem layoutClass_differs :
    (emptyStruct.cTypeGetLayoutInfo 1 (.valueType 0) =
        some ⟨.fixed, 1, CAlign.byte, .valueType 0⟩ ∧
      ∃ layout t, layoutClass (loadedWith emptyStruct true) .lp64 3 0
        (.initial (loadedWith emptyStruct true)) = .ok layout t ∧ layout.size = 0) ∧
    twoInts.cTypeGetLayoutInfo 2 (.valueType 0) = some ⟨.fixed, 4, CAlign.int, .valueType 0⟩ ∧
      ∃ layout t, layoutClass (loadedWith twoInts false) .lp64 3 0
        (.initial (loadedWith twoInts false)) = .ok layout t ∧ layout.size = 8 := by
  have hempty : returns (layoutClass (loadedWith emptyStruct true) .lp64 3 0
      (.initial (loadedWith emptyStruct true))) (·.size == 0) = true := by
    decide
  have hunion : returns (layoutClass (loadedWith twoInts false) .lp64 3 0
      (.initial (loadedWith twoInts false))) (·.size == 8) = true := by
    decide
  obtain ⟨layout, t, hrun, hsize⟩ := returns_ok hempty
  obtain ⟨layout', t', hrun', hsize'⟩ := returns_ok hunion
  exact ⟨⟨rfl, layout, t, hrun, eq_of_beq hsize⟩, rfl, layout', t', hrun', eq_of_beq hsize'⟩

end Pnet.Cscc
