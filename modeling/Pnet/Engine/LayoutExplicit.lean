import Pnet.Engine.LayoutFields

/-! The instance fields of a class with field offsets, and when they lie inside the
class. The offsets and the declared size come from the image as they are. -/
namespace Pnet.Engine
open Pnet.Lib Pnet.Image

section
variable (md : Metadata) (pf : Platform)

/-- The layouts a class's own fields start from. -/
structure OwnFields (info : ClassId) (parent : InstanceLayout) (options : LayoutOptions)
    (layouts : List InstanceLayout) : Prop where
  parent : ParentLaysOut md pf info parent
  options : layoutOptions md info = some options
  layouts : FieldsLayOut md pf (instanceFields md info) layouts

def fieldRequest (options : LayoutOptions) (f : MemberId) (layout : InstanceLayout) : Request :=
  ⟨(options.fieldLayout md f).map BitVec.toNat,
    ⟨layout.size.toNat, (packAlignment options.packingSize layout.alignment).toNat⟩⟩

def requests (options : LayoutOptions) (fields : List MemberId) (layouts : List InstanceLayout) :
    List Request :=
  List.zipWith (fieldRequest md options) fields layouts

def requestsAlignment (start : Nat) (own : List Request) : Nat :=
  own.foldl (fun a x => max a x.item.alignment) start

/-- The fields, placed in unbounded integers, end below `2 ^ 32`, and so does the size
of the class. The last case is that of fields without bytes at offset 0. -/
def ExplicitFits (info : ClassId) : Prop :=
  ∃ parent options layouts, OwnFields md pf info parent options layouts ∧
    let own := requests md options (instanceFields md info) layouts
    let size := overlayExtent parent.size.toNat own
    let alignment := requestsAlignment parent.alignment.toNat own
    size < 2 ^ 32 ∧ (size < options.explicitSize.toNat ∨ roundUp size alignment < 2 ^ 32 ∨
      ∀ pre x post, own = pre ++ x :: post →
        x.place (2 ^ 32) (overlayExtent parent.size.toNat pre) + x.item.size = 0)

/-- A field without an offset of its own is rounded up to `2 ^ 32`, that is to 0. -/
def ExplicitRestarts (info : ClassId) : Prop :=
  ∃ parent options layouts, OwnFields md pf info parent options layouts ∧
    ∃ pre x post, requests md options (instanceFields md info) layouts = pre ++ x :: post ∧
      x.Restarts (2 ^ 32) (overlayExtent parent.size.toNat pre)

/-- Every field of the class ends inside the recorded size. -/
def FieldsInside (s : LayoutState) (info : ClassId) (recorded : LayoutInfo) : Prop :=
  ∀ f layout, f ∈ instanceFields md info → TypeLaysOut md pf (md.field f).signature layout →
    (s.offset f).toNat + layout.size.toNat ≤ recorded.size.toNat

end

variable {md : Metadata} {pf : Platform} {info : ClassId} {s t : LayoutState}

theorem OwnFields.unique {parent parent' : InstanceLayout} {options options' : LayoutOptions}
    {layouts layouts' : List InstanceLayout} (h : OwnFields md pf info parent options layouts)
    (h' : OwnFields md pf info parent' options' layouts') :
    parent = parent' ∧ options = options' ∧ layouts = layouts' := by
  refine ⟨h.parent.unique h'.parent, ?_, h.layouts.unique h'.layouts⟩
  exact Option.some.inj (h.options.symm.trans h'.options)

/-! ### The walk over the fields -/

theorem toNat_placeField (fieldLayout : Option ILUInt32) (size total : ILUInt32)
    {alignment : ILUInt32} (hpow : IsPow alignment) :
    (placeField fieldLayout size alignment total).1.toNat =
        Request.place (2 ^ 32) total.toNat
          ⟨fieldLayout.map BitVec.toNat, ⟨size.toNat, alignment.toNat⟩⟩ ∧
      (placeField fieldLayout size alignment total).2.toNat =
        Request.advance (2 ^ 32) total.toNat
          ⟨fieldLayout.map BitVec.toNat, ⟨size.toNat, alignment.toNat⟩⟩ := by
  cases fieldLayout with
  | some offset =>
    refine ⟨rfl, ?_⟩
    show (if total < offset + size then offset + size else total).toNat =
      max total.toNat ((offset.toNat + size.toNat) % 2 ^ 32)
    rw [← BitVec.toNat_add]
    split
    · rename_i h
      exact (Nat.max_eq_right (Nat.le_of_lt h)).symm
    · rename_i h
      exact (Nat.max_eq_left (Nat.le_of_not_lt h)).symm
  | none =>
    have halign := toNat_alignTo total hpow
    refine ⟨halign, ?_⟩
    show (alignTo total alignment + size).toNat = _
    rw [BitVec.toNat_add, halign]
    rfl

variable (md) in
theorem toNat_placeInstanceField {options : LayoutOptions}
    (hpack : options.packingSize = 0 ∨ IsPow options.packingSize) (f : MemberId)
    {layout : InstanceLayout} (hpow : IsPow layout.alignment) (placing : Placing) :
    (placeInstanceField md options f layout placing).1.1.toNat =
        (fieldRequest md options f layout).place (2 ^ 32) placing.layout.size.toNat ∧
      (placeInstanceField md options f layout placing).2.layout.size.toNat =
        (fieldRequest md options f layout).advance (2 ^ 32) placing.layout.size.toNat :=
  toNat_placeField (options.fieldLayout md f) layout.size placing.layout.size
    (isPow_packAlignment hpack hpow)

theorem toNat_placeFields {options : LayoutOptions}
    (hpack : options.packingSize = 0 ∨ IsPow options.packingSize) {fields : List MemberId}
    {layouts : List InstanceLayout} (hlayouts : FieldsLayOut md pf fields layouts)
    (placing : Placing) :
    (placeFields md options fields layouts placing).layout.size.toNat =
        overlay (2 ^ 32) placing.layout.size.toNat (requests md options fields layouts) ∧
      (placeFields md options fields layouts placing).maxAlignment.toNat =
        (requests md options fields layouts).foldl (fun a x => max a x.item.alignment)
          placing.maxAlignment.toNat := by
  induction hlayouts generalizing placing with
  | nil => exact ⟨rfl, rfl⟩
  | @cons f layout fields layouts hlayout _ ih =>
    obtain ⟨_, hsize⟩ := toNat_placeInstanceField md hpack f hlayout.isPow placing
    obtain ⟨ihsize, ihalign⟩ := ih (placeInstanceField md options f layout placing).2
    constructor
    · rw [hsize] at ihsize
      exact ihsize
    · rw [show (placeInstanceField md options f layout placing).2.maxAlignment =
        maxAlign placing.maxAlignment (packAlignment options.packingSize layout.alignment) from rfl,
        toNat_maxAlign] at ihalign
      exact ihalign

theorem requests_fits {options : LayoutOptions}
    (hpack : options.packingSize = 0 ∨ IsPow options.packingSize) {fields : List MemberId}
    {layouts : List InstanceLayout} (hlayouts : FieldsLayOut md pf fields layouts) :
    ∀ x ∈ requests md options fields layouts, x.Fits (2 ^ 32) := by
  induction hlayouts with
  | nil => exact nofun
  | @cons f layout fields layouts hlayout _ ih =>
    intro x hx
    cases List.mem_cons.1 hx with
    | inl hx =>
      subst hx
      have hpow := isPow_packAlignment hpack hlayout.isPow
      refine ⟨⟨hpow.pos, hpow.dvd, layout.size.isLt⟩, fun offset hoffset => ?_⟩
      obtain ⟨word, _, hword⟩ := Option.map_eq_some_iff.1 hoffset
      rw [← hword]
      exact word.isLt
    | inr hx => exact ih x hx

/-- A field of the class, with its layout and its place among the requests. -/
theorem requests_split (options : LayoutOptions) {fields : List MemberId}
    {layouts : List InstanceLayout} (hlayouts : FieldsLayOut md pf fields layouts) :
    (∀ f ∈ fields, ∃ fpre fpost lpre layout lpost, fields = fpre ++ f :: fpost ∧
      layouts = lpre ++ layout :: lpost ∧ FieldsLayOut md pf fpre lpre ∧
      TypeLaysOut md pf (md.field f).signature layout) ∧
    ∀ pre x post, requests md options fields layouts = pre ++ x :: post →
      ∃ fpre f fpost lpre layout lpost, fields = fpre ++ f :: fpost ∧
        layouts = lpre ++ layout :: lpost ∧ FieldsLayOut md pf fpre lpre ∧
        TypeLaysOut md pf (md.field f).signature layout ∧
        pre = requests md options fpre lpre ∧ x = fieldRequest md options f layout := by
  induction hlayouts with
  | nil =>
    constructor
    · exact nofun
    · intro pre x post h
      cases pre <;> cases h
  | @cons f layout fields layouts hlayout hrest ih =>
    constructor
    · intro g hg
      cases List.mem_cons.1 hg with
      | inl hg =>
        subst hg
        exact ⟨[], fields, [], layout, layouts, rfl, rfl, .nil, hlayout⟩
      | inr hg =>
        obtain ⟨fpre, fpost, lpre, layout', lpost, hf, hl, hpre, hg⟩ := ih.1 g hg
        exact ⟨f :: fpre, fpost, layout :: lpre, layout', lpost, by rw [hf]; rfl, by rw [hl]; rfl,
          .cons hlayout hpre, hg⟩
    · intro pre x post h
      cases pre with
      | nil =>
        cases h
        exact ⟨[], f, fields, [], layout, layouts, rfl, rfl, .nil, hlayout, rfl, rfl⟩
      | cons x' pre =>
        obtain ⟨hx', h⟩ := List.cons.inj h
        obtain ⟨fpre, g, fpost, lpre, layout', lpost, hf, hl, hpre, hg, hpre', hx⟩ :=
          ih.2 pre x post h
        refine ⟨f :: fpre, g, fpost, layout :: lpre, layout', lpost, by rw [hf]; rfl,
          by rw [hl]; rfl, .cons hlayout hpre, hg, ?_, hx⟩
        rw [← hx', hpre']
        rfl

theorem OwnFields.packingSize {parent : InstanceLayout} {options : LayoutOptions}
    {layouts : List InstanceLayout} (h : OwnFields md pf info parent options layouts) :
    options.packingSize = 0 ∨ IsPow options.packingSize :=
  layoutOptions_packingSize h.options

theorem offset_eq_place {parent : InstanceLayout} {options : LayoutOptions}
    {layouts : List InstanceLayout} (h : OwnFields md pf info parent options layouts)
    {f : MemberId} (hwritten : Written md pf t f) {fpre fpost : List MemberId}
    (hsplit : instanceFields md info = fpre ++ f :: fpost) {lpre : List InstanceLayout}
    (hpre : FieldsLayOut md pf fpre lpre) {layout : InstanceLayout}
    (hlayout : TypeLaysOut md pf (md.field f).signature layout) :
    (t.offset f).toNat = (fieldRequest md options f layout).place (2 ^ 32)
      (overlay (2 ^ 32) parent.size.toNat (requests md options fpre lpre)) := by
  have hmem : f ∈ instanceFields md info := by
    rw [hsplit]
    exact List.mem_append_right _ (List.mem_cons_self ..)
  have howner := owner_of_mem_instanceFields hmem
  have hplaced : Placed md pf f (placeInstanceField md options f layout
      (placeFields md options fpre lpre { layout := parent })).1 := by
    refine ⟨parent, options, fpre, fpost, lpre, layout, ?_, ?_, ?_, hpre, hlayout, rfl⟩
    · rw [howner]
      exact hsplit
    · rw [howner]
      exact h.parent
    · rw [howner]
      exact h.options
  have hoffset := congrArg (fun offsets => offsets.1.toNat) (Placed.unique hwritten hplaced)
  refine hoffset.trans ?_
  show (placeInstanceField md options f layout _).1.1.toNat = _
  rw [(toNat_placeInstanceField md h.packingSize f hlayout.isPow _).1,
    (toNat_placeFields h.packingSize hpre _).1]

/-- The recorded size, from the running size after the last field. -/
theorem toNat_finishSize (explicitSize size : ILUInt32) {alignment : ILUInt32}
    (hpow : IsPow alignment) :
    (finishSize explicitSize size alignment).toNat =
      if size.toNat < explicitSize.toNat then explicitSize.toNat
      else roundUp size.toNat alignment.toNat % 2 ^ 32 := by
  unfold finishSize
  split
  · rename_i h
    rw [if_pos (show size.toNat < explicitSize.toNat from h)]
  · rename_i h
    rw [if_neg (show ¬ size.toNat < explicitSize.toNat from h), toNat_alignTo size hpow]

theorem OwnFields.recorded {parent layout : InstanceLayout} {options : LayoutOptions}
    {layouts : List InstanceLayout} (h : OwnFields md pf info parent options layouts)
    (hlaysOut : ClassLaysOut md pf info layout) (hpow : IsPow parent.alignment)
    {own : List Request} (hrequests : own = requests md options (instanceFields md info) layouts) :
    layout.alignment.toNat = requestsAlignment parent.alignment.toNat own ∧
      layout.size.toNat =
        if overlay (2 ^ 32) parent.size.toNat own < options.explicitSize.toNat then
          options.explicitSize.toNat
        else roundUp (overlay (2 ^ 32) parent.size.toNat own)
          (requestsAlignment parent.alignment.toNat own) % 2 ^ 32 := by
  obtain ⟨parent', options', layouts', hparent, hoptions, hlayouts, heq⟩ :=
    classLaysOut_iff.1 hlaysOut
  obtain ⟨rfl, rfl, rfl⟩ := h.unique ⟨hparent, hoptions, hlayouts⟩
  obtain ⟨hsize, halign⟩ := toNat_placeFields h.packingSize h.layouts { layout := parent }
  have halignment : layout.alignment.toNat = requestsAlignment parent.alignment.toNat own := by
    rw [heq, hrequests]
    show (maxAlign _ _).toNat = _
    rw [toNat_maxAlign, alignment_placeFields, halign]
    show max parent.alignment.toNat (List.foldl _ 1 _) = _
    rw [← foldl_max fun x : Request => x.item.alignment, Nat.max_eq_left hpow.pos]
    rfl
  have hfinish := toNat_finishSize options.explicitSize
    (placeFields md options (instanceFields md info) layouts { layout := parent }).layout.size
    hlaysOut.isPow
  rw [hsize, halignment] at hfinish
  refine ⟨halignment, ?_⟩
  rw [hrequests] at hfinish ⊢
  rw [← hfinish, heq]
  rfl

theorem ParentLaysOut.isPow {parent : InstanceLayout} (h : ParentLaysOut md pf info parent) :
    IsPow parent.alignment := by
  unfold ParentLaysOut at h
  split at h
  · exact h.isPow
  · subst h
    exact isPow_one

/-- A trusted class with an `int` at the given offset. -/
def intAt (offset : ILUInt32) : Metadata where
  classes := [{ isExplicitLayout := true
                fields := [{ signature := .primitive ElemType.i4, fieldLayout := some offset }] }]
  imageIsSecure _ := true

theorem intAt_laysOut (offset : ILUInt32) :
    TypeLaysOut (intAt offset) .lp64 ((intAt offset).field ⟨0, 0⟩).signature
      ⟨4, 4, 4, 4, false⟩ :=
  ⟨1, rfl⟩

end Pnet.Engine
