import Pnet.Engine.LayoutAlign
import Pnet.Engine.LayoutSound

/-! The instance fields of a class without field offsets: where they lie in the
hierarchy, and when they lie apart, aligned and inside the class. -/
namespace Pnet.Engine
open Pnet.Lib Pnet.Image

section
variable (md : Metadata) (pf : Platform)

/-- A field of the class or of a class above it. -/
def InstanceField (info : ClassId) (f : MemberId) : Prop :=
  ∃ ancestor, Inherits md info ancestor ∧ f ∈ instanceFields md ancestor

/-- No class of the hierarchy is laid out by the offsets of the metadata. -/
def AutoLayout (info : ClassId) : Prop :=
  ∀ ancestor, Inherits md info ancestor → usesFieldLayout md ancestor = false

def InstanceLayout.item (layout : InstanceLayout) : Item :=
  ⟨layout.size.toNat, layout.alignment.toNat⟩

/-- The bytes of a field whose type has the given layout. -/
def fieldBytes (s : LayoutState) (f : MemberId) (layout : InstanceLayout) : Set Nat :=
  bytes (s.offset f).toNat layout.size.toNat

/-- What the recorded layout of a class promises. -/
structure SoundLayout (s : LayoutState) (info : ClassId) (recorded : LayoutInfo) : Prop where
  disjoint : ∀ f g layout layout', InstanceField md info f → InstanceField md info g → f ≠ g →
    TypeLaysOut md pf (md.field f).signature layout →
    TypeLaysOut md pf (md.field g).signature layout' →
    Disjoint (fieldBytes s f layout) (fieldBytes s g layout')
  aligned : ∀ f layout, InstanceField md info f →
    TypeLaysOut md pf (md.field f).signature layout →
    layout.alignment.toNat ∣ (s.offset f).toNat
  within : ∀ f layout, InstanceField md info f →
    TypeLaysOut md pf (md.field f).signature layout →
    fieldBytes s f layout ⊆ Set.Iio recorded.size.toNat
  size_dvd : recorded.alignment.toNat ∣ recorded.size.toNat
  inherited : ∀ parent t fuel u layout, md.parent info = some parent → Reachable md pf t →
    layoutClass md pf fuel parent t = .ok layout u →
    ∀ f, InstanceField md parent f → s.offset f = u.offset f

/-! ### The size without bounds -/

def parentExtent (classExtent : ClassId → Option Item) (info : ClassId) : Option Item :=
  match md.parent info with
  | some parent => classExtent parent
  | none => some ⟨0, 1⟩

/-- The size and alignment of a class with its fields laid end to end in unbounded
integers. The sizes of the fields are those of their types. -/
def classExtentStep (classExtent : ClassId → Option Item)
    (typeLayout : ILType → Option InstanceLayout) (info : ClassId) : Option Item :=
  match parentExtent md classExtent info, fieldTypes md typeLayout (instanceFields md info) with
  | some parent, some layouts =>
    let alignment := layouts.foldl (fun a layout => max a layout.alignment.toNat) parent.alignment
    some ⟨roundUp ((layouts.map InstanceLayout.item).foldl grow parent.size) alignment, alignment⟩
  | _, _ => none

def classExtent : Nat → ClassId → Option Item
  | 0, _ => none
  | fuel + 1, info => classExtentStep md (classExtent fuel) (typeInstance md pf fuel) info

end

variable {md : Metadata} {pf : Platform} {info : ClassId}

theorem parentExtent_mono {classExtent classExtent' : ClassId → Option Item}
    (h : Extends classExtent classExtent') :
    Extends (parentExtent md classExtent) (parentExtent md classExtent') := by
  intro info item hitem
  unfold parentExtent at *
  cases hparent : md.parent info with
  | none =>
    rw [hparent] at hitem
    exact hitem
  | some parent =>
    rw [hparent] at hitem
    exact h _ _ hitem

theorem classExtent_fueled : Fueled (classExtent md pf) := by
  intro fuel
  induction fuel with
  | zero =>
    intro info item h
    cases h
  | succ fuel ih =>
    intro info item h
    unfold classExtent classExtentStep at h ⊢
    split at h
    · rename_i parent layouts hparent hlayouts
      rw [parentExtent_mono ih _ _ hparent,
        fieldTypes_mono md (typeInstance_fueled md pf fuel) _ _ hlayouts]
      exact h
    · cases h

theorem classExtent_intro {parent : Item} {layouts : List InstanceLayout} {fuel : Nat}
    (hparent : parentExtent md (classExtent md pf fuel) info = some parent)
    (hlayouts : FieldsLayOut md pf (instanceFields md info) layouts) :
    Answers (classExtent md pf) info
      ⟨roundUp ((layouts.map InstanceLayout.item).foldl grow parent.size)
        (layouts.foldl (fun a layout => max a layout.alignment.toNat) parent.alignment),
      layouts.foldl (fun a layout => max a layout.alignment.toNat) parent.alignment⟩ := by
  obtain ⟨fuel', hlayouts⟩ := fieldsLayOut_iff.1 hlayouts
  refine ⟨max fuel fuel' + 1, ?_⟩
  unfold classExtent classExtentStep
  rw [parentExtent_mono (classExtent_fueled.le_max_left fuel fuel') _ _ hparent,
    fieldTypes_mono md ((typeInstance_fueled md pf).le_max_right fuel fuel') _ _ hlayouts]

/-! ### The fields in order -/

/-- What the running size of a class goes over: the fields of the hierarchy, and the
rounding at the end of each class. -/
inductive Entry where
  | field (f : MemberId) (layout : InstanceLayout)
  | padding (alignment : Nat)

def Entry.item : Entry → Item
  | .field _ layout => layout.item
  | .padding alignment => ⟨0, alignment⟩

def items (entries : List Entry) : List Item := entries.map Entry.item

@[simp] theorem items_append (pre post : List Entry) : items (pre ++ post) = items pre ++ items post :=
  List.map_append

@[simp] theorem items_cons (e : Entry) (entries : List Entry) :
    items (e :: entries) = e.item :: items entries :=
  rfl

def Entry.field? : Entry → Option MemberId
  | .field f _ => some f
  | .padding _ => none

def fieldsOf (entries : List Entry) : List MemberId := entries.filterMap Entry.field?

def fieldEntries (fields : List MemberId) (layouts : List InstanceLayout) : List Entry :=
  List.zipWith Entry.field fields layouts

variable (md pf) in
/-- An entry of `info` with the entries before it: a field lies where the running size
modulo `2 ^ 32` puts it. -/
def EntryPlaced (info : ClassId) (pre : List Entry) : Entry → Prop
  | .field f layout => InstanceField md info f ∧ TypeLaysOut md pf (md.field f).signature layout ∧
      ∃ offsets, Placed md pf f offsets ∧
        offsets.1.toNat = place (2 ^ 32) (finish (2 ^ 32) (items pre)) layout.item
  | .padding alignment => 0 < alignment ∧ alignment ∣ 2 ^ 32

variable (md pf) in
/-- The entries of a class and its layout. -/
structure Described (info : ClassId) (layout : InstanceLayout) (entries : List Entry) :
    Prop where
  size : layout.size.toNat = finish (2 ^ 32) (items entries)
  mem : ∀ f, InstanceField md info f → f ∈ fieldsOf entries
  placed : ∀ pre e post, entries = pre ++ e :: post → EntryPlaced md pf info pre e
  nodup : (fieldsOf entries).Nodup
  extent : Answers (classExtent md pf) info ⟨extent (items entries), layout.alignment.toNat⟩
  size_dvd : layout.alignment.toNat ∣ layout.size.toNat

theorem InstanceField.of_parent {parent : ClassId} {f : MemberId}
    (hparent : md.parent info = some parent) (h : InstanceField md parent f) :
    InstanceField md info f := by
  obtain ⟨ancestor, hinherits, hf⟩ := h
  exact ⟨ancestor, .of_parent hparent hinherits, hf⟩

theorem InstanceField.cases {f : MemberId} (h : InstanceField md info f) :
    f ∈ instanceFields md info ∨
      ∃ parent, md.parent info = some parent ∧ InstanceField md parent f := by
  obtain ⟨ancestor, hinherits, hf⟩ := h
  cases hinherits.cases with
  | inl hself => exact .inl (hself ▸ hf)
  | inr habove =>
    obtain ⟨parent, hparent, hinherits⟩ := habove
    exact .inr ⟨parent, hparent, ancestor, hinherits, hf⟩

theorem EntryPlaced.of_parent {parent : ClassId} {pre : List Entry} {e : Entry}
    (hparent : md.parent info = some parent) (h : EntryPlaced md pf parent pre e) :
    EntryPlaced md pf info pre e := by
  cases e with
  | field f layout => exact ⟨h.1.of_parent hparent, h.2⟩
  | padding alignment => exact h

theorem EntryPlaced.fits {pre : List Entry} {e : Entry} (h : EntryPlaced md pf info pre e) :
    e.item.Fits (2 ^ 32) := by
  cases e with
  | field f layout => exact ⟨h.2.1.isPow.pos, h.2.1.isPow.dvd, layout.size.isLt⟩
  | padding alignment => exact ⟨h.1, h.2, Nat.two_pow_pos 32⟩

/-! ### No class is above itself -/

theorem classInstance_parent {fuel : Nat} {layout : InstanceLayout} {parent : ClassId}
    (h : classInstance md pf (fuel + 1) info = some layout)
    (hparent : md.parent info = some parent) :
    ∃ layout, classInstance md pf fuel parent = some layout := by
  unfold classInstance classInstanceStep at h
  split at h
  · rename_i base _ _ hbase _ _
    unfold parentInstance at hbase
    rw [hparent] at hbase
    exact ⟨base, hbase⟩
  · cases h

theorem classInstance_ancestor {fuel : Nat} {layout : InstanceLayout} {ancestor : ClassId}
    (h : classInstance md pf fuel info = some layout) (hinherits : Inherits md info ancestor) :
    ∃ fuel' layout', fuel' ≤ fuel ∧ classInstance md pf fuel' ancestor = some layout' := by
  induction hinherits with
  | refl => exact ⟨fuel, layout, Nat.le_refl _, h⟩
  | tail _ hstep ih =>
    obtain ⟨fuel', layout', hle, h'⟩ := ih
    cases fuel' with
    | zero => cases h'
    | succ fuel' =>
      obtain ⟨layout'', h''⟩ := classInstance_parent h' hstep
      exact ⟨fuel', layout'', by omega, h''⟩

theorem ClassLaysOut.not_above_itself {layout : InstanceLayout} {parent : ClassId}
    (h : ClassLaysOut md pf info layout) (hparent : md.parent info = some parent) :
    ¬ Inherits md parent info := by
  intro hinherits
  obtain ⟨fuel, h⟩ := h
  induction fuel using Nat.strongRecOn generalizing layout with
  | ind fuel ih =>
    cases fuel with
    | zero => cases h
    | succ fuel =>
      obtain ⟨layout', h'⟩ := classInstance_parent h hparent
      obtain ⟨fuel', layout'', hle, h''⟩ := classInstance_ancestor h' hinherits
      exact ih fuel' (by omega) h''

/-! ### The walk over the fields of one class -/

variable (md) in
theorem placeInstanceField_auto (f : MemberId) (layout : InstanceLayout) (placing : Placing)
    (hpow : IsPow layout.alignment) :
    (placeInstanceField md {} f layout placing).1.1.toNat =
        place (2 ^ 32) placing.layout.size.toNat layout.item ∧
      (placeInstanceField md {} f layout placing).2.layout.size.toNat =
        advance (2 ^ 32) placing.layout.size.toNat layout.item ∧
      (placeInstanceField md {} f layout placing).2.maxAlignment =
        maxAlign placing.maxAlignment layout.alignment := by
  have hoffset := toNat_alignTo placing.layout.size hpow
  refine ⟨hoffset, ?_, rfl⟩
  show (alignTo placing.layout.size layout.alignment + layout.size).toNat = _
  rw [BitVec.toNat_add, hoffset]
  rfl

theorem placeFields_auto {fields : List MemberId} {layouts : List InstanceLayout}
    (hlayouts : FieldsLayOut md pf fields layouts) (placing : Placing) :
    (placeFields md {} fields layouts placing).layout.size.toNat =
        (layouts.map InstanceLayout.item).foldl (advance (2 ^ 32)) placing.layout.size.toNat ∧
      (placeFields md {} fields layouts placing).maxAlignment.toNat =
        layouts.foldl (fun a layout => max a layout.alignment.toNat)
          placing.maxAlignment.toNat := by
  induction hlayouts generalizing placing with
  | nil => exact ⟨rfl, rfl⟩
  | @cons f layout fields layouts hlayout _ ih =>
    obtain ⟨_, hsize, halign⟩ := placeInstanceField_auto md f layout placing hlayout.isPow
    obtain ⟨ihsize, ihalign⟩ := ih (placeInstanceField md {} f layout placing).2
    constructor
    · rw [hsize] at ihsize
      exact ihsize
    · rw [halign, toNat_maxAlign] at ihalign
      exact ihalign

theorem foldl_max {α : Type} (g : α → Nat) (as : List α) (m n : Nat) :
    as.foldl (fun m a => max m (g a)) (max m n) = max m (as.foldl (fun m a => max m (g a)) n) := by
  induction as generalizing n with
  | nil => rfl
  | cons a as ih =>
    rw [List.foldl_cons, List.foldl_cons, Nat.max_assoc]
    exact ih _

theorem items_fieldEntries {fields : List MemberId} {layouts : List InstanceLayout}
    (h : FieldsLayOut md pf fields layouts) :
    items (fieldEntries fields layouts) = layouts.map InstanceLayout.item := by
  induction h with
  | nil => rfl
  | cons _ _ ih =>
    rw [List.map_cons, ← ih]
    rfl

theorem finish_append (pre post : List Item) :
    finish (2 ^ 32) (pre ++ post) = post.foldl (advance (2 ^ 32)) (finish (2 ^ 32) pre) :=
  List.foldl_append

theorem extent_append (pre post : List Item) :
    Lib.extent (pre ++ post) = post.foldl grow (Lib.extent pre) :=
  List.foldl_append

/-- The entries of a class of its own, split at one of them. -/
theorem fieldEntries_split {fields : List MemberId} {layouts : List InstanceLayout}
    (h : FieldsLayOut md pf fields layouts) {pre post : List Entry} {e : Entry}
    (hsplit : fieldEntries fields layouts = pre ++ e :: post) :
    ∃ fpre f fpost lpre layout lpost, fields = fpre ++ f :: fpost ∧
      layouts = lpre ++ layout :: lpost ∧ FieldsLayOut md pf fpre lpre ∧
      TypeLaysOut md pf (md.field f).signature layout ∧
      pre = fieldEntries fpre lpre ∧ e = .field f layout := by
  induction h generalizing pre with
  | nil => cases pre <;> cases hsplit
  | @cons f layout fields layouts hlayout hrest ih =>
    cases pre with
    | nil =>
      cases hsplit
      exact ⟨[], f, fields, [], layout, layouts, rfl, rfl, .nil, hlayout, rfl, rfl⟩
    | cons e' pre =>
      obtain ⟨he, hsplit⟩ := List.cons.inj hsplit
      obtain ⟨fpre, g, fpost, lpre, layout', lpost, hfields, hlayouts, hpre, hg, hpre', he'⟩ :=
        ih hsplit
      refine ⟨f :: fpre, g, fpost, layout :: lpre, layout', lpost, ?_, ?_, .cons hlayout hpre, hg,
        ?_, he'⟩
      · rw [hfields]
        rfl
      · rw [hlayouts]
        rfl
      · rw [← he, hpre']
        rfl

/-! ### The whole hierarchy -/

theorem split_append {α : Type} {as bs pre post : List α} {e : α}
    (h : as ++ bs = pre ++ e :: post) :
    (∃ post', as = pre ++ e :: post') ∨ ∃ pre', pre = as ++ pre' ∧ bs = pre' ++ e :: post := by
  cases List.append_eq_append_iff.1 h with
  | inl h =>
    obtain ⟨mid, hpre, hbs⟩ := h
    exact .inr ⟨mid, hpre, hbs⟩
  | inr h =>
    obtain ⟨mid, has, hmid⟩ := h
    cases mid with
    | nil =>
      rw [List.nil_append] at hmid
      rw [List.append_nil] at has
      exact .inr ⟨[], by rw [has, List.append_nil], hmid.symm⟩
    | cons e' mid =>
      obtain ⟨he, _⟩ := List.cons.inj hmid
      exact .inl ⟨mid, by rw [has, he]⟩

theorem fieldsOf_append (pre post : List Entry) :
    fieldsOf (pre ++ post) = fieldsOf pre ++ fieldsOf post :=
  List.filterMap_append

theorem fieldsOf_fieldEntries {fields : List MemberId} {layouts : List InstanceLayout}
    (h : FieldsLayOut md pf fields layouts) : fieldsOf (fieldEntries fields layouts) = fields := by
  induction h with
  | nil => rfl
  | @cons f layout fields layouts _ _ ih =>
    show f :: fieldsOf (fieldEntries fields layouts) = f :: fields
    rw [ih]

variable (md pf) in
/-- What the entries of a class start with. -/
structure ParentDescribed (info : ClassId) (layout : InstanceLayout) (entries : List Entry) :
    Prop where
  size : layout.size.toNat = finish (2 ^ 32) (items entries)
  mem : ∀ parent f, md.parent info = some parent → InstanceField md parent f →
    f ∈ fieldsOf entries
  placed : ∀ pre e post, entries = pre ++ e :: post → EntryPlaced md pf info pre e
  nodup : (fieldsOf entries).Nodup
  owner : ∀ f ∈ fieldsOf entries, f.owner ≠ info
  extent : ∃ fuel, parentExtent md (classExtent md pf fuel) info =
    some ⟨extent (items entries), layout.alignment.toNat⟩

theorem ParentDescribed.root (hparent : md.parent info = none) :
    ParentDescribed md pf info rootLayout [] := by
  refine ⟨rfl, ?_, ?_, List.nodup_nil, nofun, 0, ?_⟩
  · intro parent f h
    rw [hparent] at h
    cases h
  · intro pre e post h
    cases pre <;> cases h
  · unfold parentExtent
    rw [hparent]
    rfl

theorem mem_fieldsOf {entries : List Entry} {f : MemberId} (h : f ∈ fieldsOf entries) :
    ∃ pre layout post, entries = pre ++ .field f layout :: post := by
  obtain ⟨e, he, hf⟩ := List.mem_filterMap.1 h
  obtain ⟨pre, post, hsplit⟩ := List.append_of_mem he
  cases e with
  | field g layout =>
    cases hf
    exact ⟨pre, layout, post, hsplit⟩
  | padding alignment => cases hf

theorem Described.parentDescribed {parent : ClassId} {base layout : InstanceLayout}
    {entries : List Entry} (hparent : md.parent info = some parent)
    (hclass : ClassLaysOut md pf info layout) (h : Described md pf parent base entries) :
    ParentDescribed md pf info base entries := by
  refine ⟨h.size, ?_, ?_, h.nodup, ?_, ?_⟩
  · intro parent' f hparent' hf
    rw [hparent] at hparent'
    cases hparent'
    exact h.mem f hf
  · intro pre e post hsplit
    exact (h.placed pre e post hsplit).of_parent hparent
  · intro f hf howner
    obtain ⟨pre, layout', post, hsplit⟩ := mem_fieldsOf hf
    obtain ⟨⟨ancestor, hinherits, hmem⟩, _⟩ := h.placed pre _ post hsplit
    rw [← owner_of_mem_instanceFields hmem, howner] at hinherits
    exact hclass.not_above_itself hparent hinherits
  · obtain ⟨fuel, hextent⟩ := h.extent
    refine ⟨fuel, ?_⟩
    unfold parentExtent
    rw [hparent]
    exact hextent

theorem layoutOptions_auto (h : usesFieldLayout md info = false) :
    layoutOptions md info = some {} := by
  unfold layoutOptions
  rw [h]
  rfl

/-- The entries of a class: those of its parent, its own fields, the rounding. -/
theorem ParentDescribed.extend {base : InstanceLayout} {before : List Entry}
    (h : ParentDescribed md pf info base before) (hauto : usesFieldLayout md info = false)
    (hbase : ParentLaysOut md pf info base) (hpow : IsPow base.alignment)
    {layouts : List InstanceLayout}
    (hlayouts : FieldsLayOut md pf (instanceFields md info) layouts) :
    let layout := finishInstance {}
      (placeFields md {} (instanceFields md info) layouts { layout := base })
    Described md pf info layout (before ++ fieldEntries (instanceFields md info) layouts ++
      [.padding layout.alignment.toNat]) := by
  intro layout
  have hclass : ClassLaysOut md pf info layout :=
    classLaysOut_iff.2 ⟨base, {}, layouts, hbase, layoutOptions_auto hauto, hlayouts, rfl⟩
  obtain ⟨hsize, halign⟩ := placeFields_auto hlayouts { layout := base }
  have hlayoutAlign : layout.alignment.toNat =
      layouts.foldl (fun a layout => max a layout.alignment.toNat) base.alignment.toNat := by
    show (maxAlign _ _).toNat = _
    rw [toNat_maxAlign, alignment_placeFields, halign,
      ← foldl_max fun layout : InstanceLayout => layout.alignment.toNat]
    show List.foldl _ (max base.alignment.toNat (1 : ILUInt32).toNat) layouts = _
    rw [show max base.alignment.toNat (1 : ILUInt32).toNat = base.alignment.toNat from
      Nat.max_eq_left hpow.pos]
  have hlayoutSize : layout.size.toNat = roundUp
      (finish (2 ^ 32) (items before ++ layouts.map InstanceLayout.item))
      layout.alignment.toNat % 2 ^ 32 := by
    rw [finish_append, ← h.size, ← hsize, ← toNat_alignTo _ hclass.isPow]
    rfl
  refine ⟨?_, ?_, ?_, ?_, ?_, ?_⟩
  · rw [items_append, items_append, items_fieldEntries hlayouts]
    show _ = finish (2 ^ 32) (_ ++ [(⟨0, layout.alignment.toNat⟩ : Item)])
    rw [finish_snoc, hlayoutSize]
    exact (Nat.mod_mod _ _).symm
  · intro f hf
    rw [fieldsOf_append, fieldsOf_append, fieldsOf_fieldEntries hlayouts]
    apply List.mem_append_left
    cases hf.cases with
    | inl hown => exact List.mem_append_right _ hown
    | inr habove =>
      obtain ⟨parent, hparent, hf⟩ := habove
      exact List.mem_append_left _ (h.mem parent f hparent hf)
  · intro pre e post hsplit
    cases split_append hsplit with
    | inr hlast =>
      obtain ⟨pre', _, hlast⟩ := hlast
      cases pre' with
      | nil =>
        cases hlast
        exact ⟨hclass.isPow.pos, hclass.isPow.dvd⟩
      | cons _ pre' => cases pre' <;> cases hlast
    | inl hinit =>
      obtain ⟨post', hinit⟩ := hinit
      cases split_append hinit with
      | inl hbefore =>
        obtain ⟨post'', hbefore⟩ := hbefore
        exact h.placed pre e post'' hbefore
      | inr hown =>
        obtain ⟨pre', hpre, hown⟩ := hown
        obtain ⟨fpre, f, fpost, lpre, layout', lpost, hfields, _, hlpre, hlayout', hpre', he⟩ :=
          fieldEntries_split hlayouts hown
        have hmem : f ∈ instanceFields md info := by
          rw [hfields]
          exact List.mem_append_right _ (List.mem_cons_self ..)
        have howner := owner_of_mem_instanceFields hmem
        obtain ⟨hplace, _, _⟩ := placeInstanceField_auto md f layout'
          (placeFields md {} fpre lpre { layout := base }) hlayout'.isPow
        rw [he]
        refine ⟨⟨info, .refl, hmem⟩, hlayout', _,
          ⟨base, {}, fpre, fpost, lpre, layout', ?_, ?_, ?_, hlpre, hlayout', rfl⟩, ?_⟩
        · rw [howner]
          exact hfields
        · rw [howner]
          exact hbase
        · rw [howner]
          exact layoutOptions_auto hauto
        · rw [hplace, (placeFields_auto hlpre _).1, hpre, hpre', items_append,
            items_fieldEntries hlpre, finish_append, ← h.size]
  · rw [fieldsOf_append, fieldsOf_append, fieldsOf_fieldEntries hlayouts]
    show (_ ++ []).Nodup
    rw [List.append_nil]
    apply List.Nodup.append h.nodup (instanceFields_nodup md info)
    intro f hf hown
    exact h.owner f hf (owner_of_mem_instanceFields hown)
  · obtain ⟨fuel, hextent⟩ := h.extent
    have hanswer := classExtent_intro hextent hlayouts
    rw [items_append, items_append, items_fieldEntries hlayouts]
    show Answers (classExtent md pf) info
      (Item.mk (Lib.extent (_ ++ [(⟨0, layout.alignment.toNat⟩ : Item)])) _)
    rw [extent_snoc, extent_append, hlayoutAlign]
    exact hanswer
  · rw [hlayoutSize]
    exact (Nat.dvd_mod_iff hclass.isPow.dvd).2 (dvd_roundUp hclass.isPow.pos _)

theorem AutoLayout.parent {parent : ClassId} (h : AutoLayout md info)
    (hparent : md.parent info = some parent) : AutoLayout md parent :=
  fun ancestor hinherits => h ancestor (.of_parent hparent hinherits)

/-- The layout of a class is a walk over the fields of its hierarchy. -/
theorem ClassLaysOut.described {layout : InstanceLayout} (h : ClassLaysOut md pf info layout)
    (hauto : AutoLayout md info) : ∃ entries, Described md pf info layout entries := by
  obtain ⟨fuel, hfuel⟩ := h
  induction fuel generalizing info layout with
  | zero => cases hfuel
  | succ fuel ih =>
    have hclass : ClassLaysOut md pf info layout := ⟨fuel + 1, hfuel⟩
    obtain ⟨base, options, layouts, hbase, hoptions, hlayouts, hlayout⟩ :=
      classLaysOut_iff.1 hclass
    have hown := hauto info .refl
    rw [layoutOptions_auto hown] at hoptions
    cases hoptions
    rw [hlayout]
    cases hparent : md.parent info with
    | none =>
      have hroot : base = rootLayout := by
        unfold ParentLaysOut at hbase
        rw [hparent] at hbase
        exact hbase
      subst hroot
      exact Exists.intro _ ((ParentDescribed.root hparent).extend hown hbase isPow_one hlayouts)
    | some parent =>
      have hparentLaysOut : ClassLaysOut md pf parent base := by
        unfold ParentLaysOut at hbase
        rw [hparent] at hbase
        exact hbase
      obtain ⟨base', hbase'⟩ := classInstance_parent hfuel hparent
      have hagain : ClassLaysOut md pf parent base' := ⟨fuel, hbase'⟩
      have hsame : base = base' := hparentLaysOut.unique hagain
      subst hsame
      obtain ⟨before, hbefore⟩ := ih (hauto.parent hparent) hbase'
      exact Exists.intro _ ((hbefore.parentDescribed hparent hclass).extend hown hbase
        hparentLaysOut.isPow hlayouts)

/-! ### The fields in the state -/

variable {s t u : LayoutState}

theorem offset_of_entryPlaced {pre : List Entry} {f : MemberId} {layout : InstanceLayout}
    (hwritten : Written md pf t f) (h : EntryPlaced md pf info pre (.field f layout)) :
    (t.offset f).toNat = place (2 ^ 32) (finish (2 ^ 32) (items pre)) layout.item := by
  obtain ⟨_, _, offsets, hplaced, hoffset⟩ := h
  have hsame := Placed.unique hwritten hplaced
  rw [← hoffset, ← hsame]

theorem bytes_empty (o : Nat) : bytes o 0 = ∅ := Set.Ico_self o

theorem Settled.written_field (h : Settled md pf t info) {f : MemberId}
    (hf : InstanceField md info f) : Written md pf t f := by
  obtain ⟨ancestor, hinherits, hmem⟩ := hf
  exact h.written ancestor hinherits f hmem

theorem items_split {entries : List Entry} {pre post : List Item} {x : Item}
    (h : items entries = pre ++ x :: post) :
    ∃ epre e epost, entries = epre ++ e :: epost ∧ items epre = pre ∧ e.item = x ∧
      items epost = post := by
  obtain ⟨epre, erest, hentries, hpre, hrest⟩ := List.map_eq_append_iff.1 h
  obtain ⟨e, epost, herest, he, hpost⟩ := List.map_eq_cons_iff.1 hrest
  exact ⟨epre, e, epost, by rw [hentries, herest], hpre, he, hpost⟩

theorem field_ne_of_nodup {entries pre mid post : List Entry} {f g : MemberId}
    {layout layout' : InstanceLayout} (hnodup : (fieldsOf entries).Nodup)
    (hsplit : entries = pre ++ .field f layout :: (mid ++ .field g layout' :: post)) : f ≠ g := by
  intro hfg
  subst hfg
  rw [hsplit, fieldsOf_append] at hnodup
  have htail := (List.nodup_append.1 hnodup).2.1
  have hmem : f ∈ fieldsOf (mid ++ .field f layout' :: post) := by
    rw [fieldsOf_append]
    exact List.mem_append_right _ (List.mem_cons_self ..)
  exact (List.nodup_cons.1 htail).1 hmem

/-- The fields of the state lie apart and inside the class as the entries do. -/
theorem Described.packed_iff {layout : InstanceLayout} {entries : List Entry}
    (h : Described md pf info layout entries) (hsettled : Settled md pf t info) :
    Packed (2 ^ 32) (items entries) ↔
      (∀ f g layout layout', InstanceField md info f → InstanceField md info g → f ≠ g →
        TypeLaysOut md pf (md.field f).signature layout →
        TypeLaysOut md pf (md.field g).signature layout' →
        Disjoint (fieldBytes t f layout) (fieldBytes t g layout')) ∧
      ∀ f layout', InstanceField md info f →
        TypeLaysOut md pf (md.field f).signature layout' →
        fieldBytes t f layout' ⊆ Set.Iio layout.size.toNat := by
  have hbytes : ∀ pre f fieldLayout post, entries = pre ++ .field f fieldLayout :: post →
      fieldBytes t f fieldLayout =
        bytes (place (2 ^ 32) (finish (2 ^ 32) (items pre)) fieldLayout.item)
          fieldLayout.item.size := by
    intro pre f fieldLayout post hsplit
    have hplaced := h.placed pre _ post hsplit
    rw [fieldBytes, offset_of_entryPlaced (hsettled.written_field hplaced.1) hplaced]
    rfl
  constructor
  · intro hpacked
    constructor
    · intro f g layoutF layoutG hf hg hne hlayoutF hlayoutG
      obtain ⟨pre, layoutF', post, hsplit⟩ := mem_fieldsOf (h.mem f hf)
      obtain ⟨preG, layoutG', postG, hsplitG⟩ := mem_fieldsOf (h.mem g hg)
      rw [hlayoutF.unique (h.placed _ _ _ hsplit).2.1, hlayoutG.unique (h.placed _ _ _ hsplitG).2.1,
        hbytes _ _ _ _ hsplit, hbytes _ _ _ _ hsplitG]
      cases split_append (hsplit.symm.trans hsplitG) with
      | inl hbefore =>
        obtain ⟨mid, hpre⟩ := hbefore
        rw [hpre, items_append]
        refine (hpacked.disjoint (items preG) layoutG'.item (items mid) layoutF'.item (items post)
          ?_).symm
        rw [hsplit, hpre]
        simp [Entry.item]
      | inr hafter =>
        obtain ⟨mid, hpreG, hrest⟩ := hafter
        cases mid with
        | nil =>
          cases (List.cons.inj hrest).1
          exact absurd rfl hne
        | cons e mid =>
          obtain ⟨he, hrest⟩ := List.cons.inj hrest
          rw [hpreG, ← he, items_append]
          refine hpacked.disjoint (items pre) layoutF'.item (items mid) layoutG'.item
            (items postG) ?_
          rw [hsplit, hrest]
          simp [Entry.item]
    · intro f layoutF hf hlayoutF
      obtain ⟨pre, layoutF', post, hsplit⟩ := mem_fieldsOf (h.mem f hf)
      rw [hlayoutF.unique (h.placed _ _ _ hsplit).2.1, hbytes _ _ _ _ hsplit, h.size]
      refine hpacked.within (items pre) layoutF'.item (items post) ?_
      rw [hsplit]
      simp [Entry.item]
  · rintro ⟨hdisjoint, hwithin⟩
    constructor
    · intro pre x mid y post hsplit
      obtain ⟨epre, e, erest, hentries, hpre, he, hrest⟩ := items_split hsplit
      obtain ⟨emid, e', epost, hentries', hmid, he', _⟩ := items_split hrest
      subst hpre hmid he he'
      cases e with
      | padding alignment =>
        rw [show (Entry.padding alignment).item.size = 0 from rfl, bytes_empty]
        exact Set.empty_disjoint _
      | field f layoutF =>
        cases e' with
        | padding alignment =>
          rw [show (Entry.padding alignment).item.size = 0 from rfl, bytes_empty]
          exact Set.disjoint_empty _
        | field g layoutG =>
          rw [hentries'] at hentries
          have hsecond : entries = (epre ++ .field f layoutF :: emid) ++ .field g layoutG :: epost := by
            simp [hentries]
          have hf := h.placed _ _ _ hentries
          have hg := h.placed _ _ _ hsecond
          have hdisj := hdisjoint f g layoutF layoutG hf.1 hg.1
            (field_ne_of_nodup h.nodup hentries) hf.2.1 hg.2.1
          rw [hbytes _ _ _ _ hentries, hbytes _ _ _ _ hsecond, items_append] at hdisj
          exact hdisj
    · intro pre x post hsplit
      obtain ⟨epre, e, epost, hentries, hpre, he, _⟩ := items_split hsplit
      subst hpre he
      cases e with
      | padding alignment =>
        rw [show (Entry.padding alignment).item.size = 0 from rfl, bytes_empty]
        exact Set.empty_subset _
      | field f layoutF =>
        have hf := h.placed _ _ _ hentries
        have hsub := hwithin f layoutF hf.1 hf.2.1
        rw [hbytes _ _ _ _ hentries, h.size] at hsub
        exact hsub

theorem Described.fits {layout : InstanceLayout} {entries : List Entry}
    (h : Described md pf info layout entries) : ∀ x ∈ items entries, x.Fits (2 ^ 32) := by
  intro x hx
  obtain ⟨pre, post, hsplit⟩ := List.append_of_mem hx
  obtain ⟨epre, e, epost, hentries, _, he, _⟩ := items_split hsplit
  rw [← he]
  exact (h.placed _ _ _ hentries).fits

theorem Described.aligned {layout : InstanceLayout} {entries : List Entry}
    (h : Described md pf info layout entries) (hsettled : Settled md pf t info) {f : MemberId}
    {layoutF : InstanceLayout} (hf : InstanceField md info f)
    (hlayoutF : TypeLaysOut md pf (md.field f).signature layoutF) :
    layoutF.alignment.toNat ∣ (t.offset f).toNat := by
  obtain ⟨pre, layoutF', post, hsplit⟩ := mem_fieldsOf (h.mem f hf)
  have hplaced := h.placed _ _ _ hsplit
  rw [hlayoutF.unique hplaced.2.1, offset_of_entryPlaced (hsettled.written_field hf) hplaced]
  exact (Nat.dvd_mod_iff hplaced.fits.dvd).2 (dvd_roundUp hplaced.fits.pos _)

/-- Whenever `LayoutClass` accepts a class without field offsets, the recorded layout is
sound exactly when the fields of the hierarchy, laid end to end, take less than
`2 ^ 32` bytes. -/
theorem layoutClass_sound_iff (hs : Reachable md pf s) {fuel : Nat} {layout : LayoutInfo}
    (hrun : layoutClass md pf fuel info s = .ok layout t) (hauto : AutoLayout md info) :
    SoundLayout md pf t info layout ↔
      ∃ item, Answers (classExtent md pf) info item ∧ item.size < 2 ^ 32 := by
  have hrefines := hs.refines hrun
  obtain ⟨entries, hdescribed⟩ := hrefines.laysOut.described hauto
  have hsettled := hrefines.settled
  have hpacked := hdescribed.packed_iff hsettled
  have hlt := Lib.packed_iff (Nat.two_pow_pos 32) hdescribed.fits
  constructor
  · intro h
    exact ⟨_, hdescribed.extent, hlt.1 (hpacked.2 ⟨h.disjoint, h.within⟩)⟩
  · rintro ⟨item, hitem, hsize⟩
    have hsame := Answers.unique classExtent_fueled hitem hdescribed.extent
    rw [hsame] at hsize
    obtain ⟨hdisjoint, hwithin⟩ := hpacked.1 (hlt.2 hsize)
    refine ⟨hdisjoint, fun f layoutF hf hlayoutF => hdescribed.aligned hsettled hf hlayoutF,
      hwithin, hdescribed.size_dvd, ?_⟩
    intro parent r fuel' u layout' hparent hr hrun' f hf
    have hown := hsettled.written_field (hf.of_parent hparent)
    have hthere := (hr.refines hrun').settled.written_field hf
    exact (Prod.mk.inj (Placed.unique hown hthere)).1

/-- A class with a byte and an `int`. -/
def byteAndInt : Metadata where
  classes := [{ fields := [{ signature := .primitive ElemType.u1 },
    { signature := .primitive ElemType.i4 }] }]
  imageIsSecure _ := false

theorem layoutClass_sound_byteAndInt :
    ∃ layout t, layoutClass byteAndInt .lp64 2 0 (.initial byteAndInt) = .ok layout t ∧
      SoundLayout byteAndInt .lp64 t 0 layout := by
  have hreturns : returns (layoutClass byteAndInt .lp64 2 0 (.initial byteAndInt))
      (·.size == 8) = true := by
    decide +kernel
  obtain ⟨layout, t, hrun, _⟩ := returns_ok hreturns
  have hauto : AutoLayout byteAndInt 0 := fun _ _ => by simp [usesFieldLayout, byteAndInt]
  exact ⟨layout, t, hrun, (layoutClass_sound_iff .initial hrun hauto).2
    ⟨⟨8, 4⟩, ⟨2, by decide +kernel⟩, by decide⟩⟩

/-- Value types of which each has two fields of the one before it. -/
def doubling : Metadata where
  classes := { fields := [{ signature := .primitive ElemType.i8 }] } ::
    (List.range 29).map fun k =>
      { fields := [{ signature := .valueType k }, { signature := .valueType k }] }
  imageIsSecure _ := false

/-- The last of them has `2 ^ 32` bytes, and is recorded with none. -/
theorem layoutClass_doubling_wraps :
    ∃ layout t, layoutClass doubling .lp64 60 29 (.initial doubling) = .ok layout t ∧
      AutoLayout doubling 29 ∧ ¬ SoundLayout doubling .lp64 t 29 layout := by
  have hreturns : returns (layoutClass doubling .lp64 60 29 (.initial doubling))
      (·.size == 0) = true := by
    decide +kernel
  obtain ⟨layout, t, hrun, hsize⟩ := returns_ok hreturns
  have hfield : TypeLaysOut doubling .lp64 (doubling.field ⟨29, 0⟩).signature
      ⟨0x80000000, 8, 0x80000000, 8, false⟩ :=
    ⟨60, by decide +kernel⟩
  refine ⟨layout, t, hrun, fun _ _ => by simp [usesFieldLayout, doubling], ?_⟩
  intro hsound
  have hmem : InstanceField doubling 29 ⟨29, 0⟩ := ⟨29, .refl, by decide⟩
  have hfirst : (t.offset ⟨29, 0⟩).toNat ∈
      fieldBytes t ⟨29, 0⟩ ⟨0x80000000, 8, 0x80000000, 8, false⟩ :=
    ⟨Nat.le_refl _, Nat.lt_add_of_pos_right (by decide)⟩
  have hwithin := hsound.within _ _ hmem hfield hfirst
  rw [Set.mem_Iio, show layout.size = 0 from eq_of_beq hsize] at hwithin
  exact Nat.not_lt_zero _ hwithin

end Pnet.Engine
