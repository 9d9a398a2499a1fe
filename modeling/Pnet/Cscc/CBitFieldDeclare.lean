import Pnet.Cscc.CBitField

/-! What the declarations of members leave in the class of a structure. -/
namespace Pnet.Cscc
open Pnet.Image

/-! ### Declarations -/

/-- A member of a structure; `maxBits` is the width of the type of a bit field. -/
inductive Declaration where
  | field (name : List ILUInt8) (type : ILType)
  | bitField (name : Option (List ILUInt8)) (type : ILType) (numBits maxBits : ILUInt32)
deriving Repr

/-- A bit field, and the bits of a storage field that it has; `width` is that of the storage. -/
structure Allotment where
  name : Option (List ILUInt8)
  storage : List ILUInt8
  start : ILUInt32
  size : ILUInt32
  width : ILUInt32
deriving DecidableEq, Repr

/-- The members that have been declared. `afterUnnamed` when the last is an unnamed bit field. -/
structure Members where
  program : CProgram
  fieldNames : List (List ILUInt8) := []
  allotments : List Allotment := []
  afterUnnamed : Bool := false
deriving Repr

def Members.bitFieldNames (m : Members) : List (List ILUInt8) :=
  m.allotments.filterMap Allotment.name

/-- A declaration that is an error declares nothing. -/
def Members.declare (fuel : Nat) (info : ClassId) (m : Members) : Declaration → Option Members
  | .field name type => do
    let (defined, p) ← m.program.cTypeDefineField fuel info name type
    if defined then
      some { m with program := p, fieldNames := m.fieldNames ++ [name], afterUnnamed := false }
    else some { m with program := p }
  | .bitField name type numBits maxBits => do
    let place := ((m.program.cls info).searchStorage type numBits maxBits).place
    let (defined, p) ← m.program.cTypeDefineBitField fuel info name type numBits maxBits
    if defined then
      some { m with
        program := p
        allotments := m.allotments ++ [⟨name, place.1, place.2, numBits, maxBits⟩]
        afterUnnamed := name.isNone }
    else some { m with program := p }

def Members.declareAll (fuel : Nat) (info : ClassId) (m : Members) (ds : List Declaration) :
    Option Members :=
  ds.foldlM (Members.declare fuel info) m

/-- An identifier does not begin with a full stop, and its length is an `int`. -/
structure IsIdentifier (name : List ILUInt8) : Prop where
  length_lt : name.length < 2 ^ 31
  head?_ne : name.head? ≠ some 0x2E

/-- What the parser defines members with. -/
def Declaration.Legal : Declaration → Prop
  | .field name _ => IsIdentifier name
  | .bitField name type numBits maxBits =>
    (∀ fieldName, name = some fieldName → IsIdentifier fieldName) ∧
      bitFieldMaxSize type = some maxBits ∧ 0 < numBits ∧ numBits ≤ maxBits

/-! ### Storage names -/

theorem length_storageName_lt {num : Nat} (h : num < 2 ^ 32) :
    (storageName num).length < 2 ^ 31 := by
  have hdigits := length_decimal_le h
  have hprefix : bitFieldPrefix.length = 10 := rfl
  rw [storageName, List.length_append, hprefix]
  omega

theorem storageName_injective : Function.Injective storageName := fun _ _ h =>
  decimal_injective (List.append_cancel_left h)

theorem isPrefixOf_storageName (num : Nat) : bitFieldPrefix.isPrefixOf (storageName num) = true :=
  List.isPrefixOf_iff_prefix.2 (List.prefix_append _ _)

theorem IsIdentifier.not_isPrefixOf {name : List ILUInt8} (h : IsIdentifier name) :
    bitFieldPrefix.isPrefixOf name = false := by
  rw [← Bool.not_eq_true, List.isPrefixOf_iff_prefix]
  rintro ⟨rest, rfl⟩
  exact h.head?_ne rfl

theorem elementBits_le {elem : Nat} {width : ILUInt32} (h : elementBits elem = some width) :
    width.toNat ≤ 64 := by
  unfold elementBits at h
  split at h <;> cases h <;> decide

theorem ilTypeIdentical_primitive {type type2 : ILType} {elem : Nat}
    (htype : ilTypeStripPrefixes type = .primitive elem) (h : ilTypeIdentical type type2 = true) :
    ilTypeStripPrefixes type2 = .primitive elem := by
  induction type using ilTypeStripPrefixes.induct with
  | case1 _ type ih | case2 _ type ih | case3 type ih =>
    rw [ilTypeStripPrefixes] at htype
    rw [ilTypeIdentical] at h
    exact ih htype h
  | case4 type h1 h2 h3 =>
    rw [ilTypeStripPrefixes.eq_4 type h1 h2 h3] at htype
    rw [htype, ilTypeIdentical] at h
    split at h
    · next elem2 hstrip =>
      rw [hstrip, eq_of_beq h]
    · cases h

theorem stripPrefixes_of_bitFieldMaxSize {type : ILType} {width : ILUInt32}
    (h : bitFieldMaxSize type = some width) :
    ∃ elem, ilTypeStripPrefixes type = .primitive elem := by
  unfold bitFieldMaxSize at h
  split at h
  · next elem htype => exact ⟨elem, htype⟩
  · cases h

/-- Two types that are alike have the same width. -/
theorem bitFieldMaxSize_of_identical {type type2 : ILType} {width : ILUInt32}
    (hwidth : bitFieldMaxSize type = some width) (h : ilTypeIdentical type type2 = true) :
    bitFieldMaxSize type2 = some width := by
  obtain ⟨elem, htype⟩ := stripPrefixes_of_bitFieldMaxSize hwidth
  rw [bitFieldMaxSize, htype] at hwidth
  rw [bitFieldMaxSize, ilTypeIdentical_primitive htype h]
  exact hwidth

/-! ### What the class holds -/

def Allotment.limit (a : Allotment) : Nat := a.start.toNat + a.size.toNat

/-- The attribute value of a bit field that has a name. -/
def Allotment.value? (a : Allotment) : Option BitFieldValue :=
  a.name.map fun name => ⟨name, a.storage, a.start, a.size⟩

/-- The bits of a bit field are bits of a storage field. -/
structure Allotment.Placed (fields : List CField) (a : Allotment) : Prop where
  identifier : ∀ name, a.name = some name → IsIdentifier name
  size_pos : 0 < a.size.toNat
  limit_le : a.limit ≤ a.width.toNat
  storage : ∃ field ∈ fields, field.isStorage = true ∧ field.name = a.storage ∧
    bitFieldMaxSize field.signature = some a.width

/-- The class of a structure whose members are `m`. -/
structure Holds (c : CClass) (m : Members) : Prop where
  attributes : c.attributes = (m.allotments.filterMap Allotment.value?).map BitFieldValue.blob
  notStatic : ∀ field ∈ c.fields, field.isStatic = false
  storages : (c.fields.filter CField.isStorage).map CField.name =
    (List.range (c.fields.countP CField.isStorage)).map fun i => storageName (i + 1)
  others : (c.fields.filter fun field => !field.isStorage).map CField.name = m.fieldNames
  identifiers : ∀ name ∈ m.fieldNames, IsIdentifier name
  placed : ∀ a ∈ m.allotments, a.Placed c.fields
  count_lt : c.fields.length < 2 ^ 31

theorem bitFieldMaxSize_le {type : ILType} {width : ILUInt32}
    (h : bitFieldMaxSize type = some width) : width.toNat ≤ 64 := by
  obtain ⟨elem, htype⟩ := stripPrefixes_of_bitFieldMaxSize h
  rw [bitFieldMaxSize, htype] at h
  exact elementBits_le h

theorem Allotment.Placed.limit_lt {fields : List CField} {a : Allotment} (h : a.Placed fields) :
    a.limit < 2 ^ 32 := by
  obtain ⟨_, _, _, _, hwidth⟩ := h.storage
  have hle := bitFieldMaxSize_le hwidth
  have hlimit := h.limit_le
  omega

theorem Allotment.Placed.mono {fields fields' : List CField} {a : Allotment} (h : a.Placed fields)
    (hsub : fields ⊆ fields') : a.Placed fields' :=
  let ⟨field, hmem, hfield⟩ := h.storage
  ⟨h.identifier, h.size_pos, h.limit_le, field, hsub hmem, hfield⟩

namespace Holds

variable {c : CClass} {m : Members} (h : Holds c m)
include h

theorem nodup_storages : ((c.fields.filter CField.isStorage).map CField.name).Nodup := by
  rw [h.storages]
  exact List.nodup_range.map fun _ _ heq => Nat.succ.inj (storageName_injective heq)

theorem storage_unique {field other : CField} (hfield : field ∈ c.fields)
    (hstorage : field.isStorage = true) (hother : other ∈ c.fields)
    (hotherStorage : other.isStorage = true) (hname : field.name = other.name) : field = other :=
  List.inj_on_of_nodup_map h.nodup_storages (List.mem_filter.2 ⟨hfield, hstorage⟩)
    (List.mem_filter.2 ⟨hother, hotherStorage⟩) hname

theorem name_storage {field : CField} (hfield : field ∈ c.fields)
    (hstorage : field.isStorage = true) :
    ∃ i < c.fields.countP CField.isStorage, field.name = storageName (i + 1) := by
  have hmem := List.mem_map_of_mem (f := CField.name) (List.mem_filter.2 ⟨hfield, hstorage⟩)
  rw [h.storages] at hmem
  obtain ⟨i, hi, hname⟩ := List.mem_map.1 hmem
  exact ⟨i, List.mem_range.1 hi, hname.symm⟩

theorem length_name_lt {field : CField} (hfield : field ∈ c.fields)
    (hstorage : field.isStorage = true) : field.name.length < 2 ^ 31 := by
  obtain ⟨i, hi, hname⟩ := h.name_storage hfield hstorage
  have hcount := List.countP_le_length (p := CField.isStorage) (l := c.fields)
  have hlen := h.count_lt
  rw [hname]
  exact length_storageName_lt (by omega)

theorem readable : ∀ value ∈ m.allotments.filterMap Allotment.value?,
    value.Readable ∧ value.limit < 2 ^ 32 := by
  intro value hvalue
  obtain ⟨a, ha, hsome⟩ := List.mem_filterMap.1 hvalue
  obtain ⟨name, hname, rfl⟩ := Option.map_eq_some_iff.1 hsome
  have hplaced := h.placed a ha
  obtain ⟨field, hfield, hstorage, hfieldName, -⟩ := hplaced.storage
  exact ⟨⟨(hplaced.identifier name hname).length_lt,
    hfieldName ▸ h.length_name_lt hfield hstorage⟩, hplaced.limit_lt⟩

/-- The bits of a bit field that has a name are taken. -/
theorem limit_le_leftOver {a : Allotment} (ha : a ∈ m.allotments) (hname : a.name.isSome = true) :
    a.limit ≤ (c.bitFieldLeftOver a.storage).toNat := by
  obtain ⟨name, hname⟩ := Option.isSome_iff_exists.1 hname
  have hvalue : (⟨name, a.storage, a.start, a.size⟩ : BitFieldValue) ∈
      m.allotments.filterMap Allotment.value? :=
    List.mem_filterMap.2 ⟨a, ha, by rw [Allotment.value?, hname, Option.map_some]⟩
  rw [CClass.bitFieldLeftOver, h.attributes]
  exact (le_foldl_nextStart (fun v hv => (h.readable v hv).1) (fun v hv => (h.readable v hv).2)
    0).2 _ hvalue rfl

theorem leftOver_le {name : List ILUInt8} {bound : Nat}
    (hbound : ∀ a ∈ m.allotments, a.storage = name → a.limit ≤ bound) :
    (c.bitFieldLeftOver name).toNat ≤ bound := by
  rw [CClass.bitFieldLeftOver, h.attributes]
  refine foldl_nextStart_le (fun v hv => (h.readable v hv).1) (fun v hv => (h.readable v hv).2)
    (fun value hvalue hstorage => ?_) 0 (Nat.zero_le _)
  obtain ⟨a, ha, hsome⟩ := List.mem_filterMap.1 hvalue
  obtain ⟨_, _, rfl⟩ := Option.map_eq_some_iff.1 hsome
  exact hbound a ha hstorage

/-- No more bits are taken than there are. -/
theorem leftOver_le_width {field : CField} {width : ILUInt32} (hfield : field ∈ c.fields)
    (hstorage : field.isStorage = true) (hwidth : bitFieldMaxSize field.signature = some width) :
    (c.bitFieldLeftOver field.name).toNat ≤ width.toNat := by
  refine h.leftOver_le fun a ha hname => ?_
  obtain ⟨other, hother, hotherStorage, hotherName, hotherWidth⟩ := (h.placed a ha).storage
  have hsame := h.storage_unique hfield hstorage hother hotherStorage (by rw [hotherName, hname])
  rw [← hsame, hwidth] at hotherWidth
  rw [Option.some.inj hotherWidth]
  exact (h.placed a ha).limit_le

/-- A name that no storage field has yet. -/
theorem storage_ne_next {a : Allotment} (ha : a ∈ m.allotments) :
    a.storage ≠ storageName (1 + c.fields.countP CField.isStorage) := by
  obtain ⟨field, hfield, hstorage, hname, -⟩ := (h.placed a ha).storage
  obtain ⟨i, hi, hi'⟩ := h.name_storage hfield hstorage
  intro heq
  rw [← hname, hi'] at heq
  have := storageName_injective heq
  omega

theorem leftOver_next :
    c.bitFieldLeftOver (storageName (1 + c.fields.countP CField.isStorage)) = 0 :=
  BitVec.eq_of_toNat_eq <| Nat.le_zero.1 <|
    h.leftOver_le fun _ ha heq => absurd heq (h.storage_ne_next ha)

end Holds

/-! ### What a declaration does -/

def CClass.addField (c : CClass) (field : CField) : CClass :=
  { c with fields := c.fields ++ [field] }

/-- How a declaration changes the class of the structure, and its members; `q` is the program
after it. -/
inductive Declares (c : CClass) (m : Members) (q : CProgram) :
    Declaration → CClass → Members → Prop
  | error (name : List ILUInt8) (type : ILType) :
    Declares c m q (.field name type) c { m with program := q }
  | field (type : ILType) (field : CField) (hstatic : field.isStatic = false) :
    Declares c m q (.field field.name type) (c.addField field)
      { m with program := q, fieldNames := m.fieldNames ++ [field.name], afterUnnamed := false }
  | reuse (name : Option (List ILUInt8)) (type : ILType) (numBits maxBits : ILUInt32)
    (before : List CField) (field : CField) (hfields : c.fields = before ++ [field])
    (hstorage : field.isStorage = true) (hsame : ilTypeIdentical type field.signature = true)
    (hspace : numBits ≤ maxBits - c.bitFieldLeftOver field.name)
    (hfound : (c.searchStorage type numBits maxBits).isFound = true) :
    Declares c m q (.bitField name type numBits maxBits)
      (c.bitFieldAdd name field.name (c.bitFieldLeftOver field.name) numBits)
      { m with
        program := q
        allotments := m.allotments ++
          [⟨name, field.name, c.bitFieldLeftOver field.name, numBits, maxBits⟩]
        afterUnnamed := name.isNone }
  | fresh (name : Option (List ILUInt8)) (numBits maxBits : ILUInt32) (field : CField)
    (hname : field.name = storageName (1 + c.fields.countP CField.isStorage))
    (hstatic : field.isStatic = false)
    (hfound : (c.searchStorage field.signature numBits maxBits).isFound = false) :
    Declares c m q (.bitField name field.signature numBits maxBits)
      ((c.addField field).bitFieldAdd name field.name 0 numBits)
      { m with
        program := q
        allotments := m.allotments ++ [⟨name, field.name, 0, numBits, maxBits⟩]
        afterUnnamed := name.isNone }

theorem declares_of_declare {fuel : Nat} {info : ClassId} {m m' : Members} {d : Declaration}
    (hd : d.Legal) (hinfo : info < m.program.classes.length)
    (h : m.declare fuel info d = some m') :
    info < m'.program.classes.length ∧
      Declares (m.program.cls info) m m'.program d (m'.program.cls info) m' := by
  cases d with
  | field name type =>
    rw [Members.declare] at h
    obtain ⟨⟨defined, q⟩, hq, h⟩ := Option.bind_eq_some_iff.1 h
    obtain ⟨hle, hcls⟩ := cTypeDefineField_cases hinfo hq
    cases defined with
    | false =>
      cases h
      refine ⟨hinfo.trans_le hle, ?_⟩
      rw [hcls]
      exact .error name type
    | true =>
      cases h
      obtain ⟨field, rfl, hstatic, hcls⟩ := hcls
      refine ⟨hinfo.trans_le hle, ?_⟩
      rw [hcls]
      exact .field type field hstatic
  | bitField name type numBits maxBits =>
    rw [Members.declare, CProgram.cTypeDefineBitField] at h
    obtain ⟨before, field, hfields, hstorage, hsame, hspace, hsearch⟩ | hsearch :=
      (m.program.cls info).findStorage_cases type numBits maxBits (m.program.cls info).fields 1
    · rw [CClass.searchStorage, hsearch] at h
      cases h
      refine ⟨by rw [length_modifyClass]; exact hinfo, ?_⟩
      rw [cls_modifyClass hinfo]
      exact .reuse name type numBits maxBits before field hfields hstorage hsame hspace
        (by rw [CClass.searchStorage, hsearch, StorageSearch.isFound])
    · obtain ⟨elem, htype⟩ := stripPrefixes_of_bitFieldMaxSize hd.2.1
      rw [CClass.searchStorage, hsearch] at h
      dsimp only at h
      cases fuel with
      | zero =>
        rw [cTypeDefineField_zero htype] at h
        cases h
      | succ fuel =>
        rw [cTypeDefineField_primitive htype] at h
        cases h
        refine ⟨by rw [length_modifyClass, length_modifyClass]; exact hinfo, ?_⟩
        rw [cls_modifyClass (by rw [length_modifyClass]; exact hinfo), cls_modifyClass hinfo]
        exact .fresh name numBits maxBits (m.program.newField info _ type) rfl rfl
          (by rw [CClass.searchStorage]; exact congrArg StorageSearch.isFound hsearch)

@[simp] theorem CClass.fields_bitFieldAdd (c : CClass) (name : Option (List ILUInt8))
    (storage : List ILUInt8) (posn numBits : ILUInt32) :
    (c.bitFieldAdd name storage posn numBits).fields = c.fields := by
  cases name <;> rfl

@[simp] theorem CClass.fields_addField (c : CClass) (field : CField) :
    (c.addField field).fields = c.fields ++ [field] := rfl

@[simp] theorem CClass.attributes_addField (c : CClass) (field : CField) :
    (c.addField field).attributes = c.attributes := rfl

theorem CClass.attributes_bitFieldAdd (c : CClass) (a : Allotment) :
    (c.bitFieldAdd a.name a.storage a.start a.size).attributes =
      c.attributes ++ ([a].filterMap Allotment.value?).map BitFieldValue.blob := by
  obtain ⟨name, storage, start, size, width⟩ := a
  cases name
  · exact (List.append_nil _).symm
  · rfl

namespace Holds

variable {c c' : CClass} {m m' : Members} {q : CProgram} {field : CField}

theorem addOrdinary (h : Holds c m) (hstatic : field.isStatic = false)
    (hname : IsIdentifier field.name) (hlen : c.fields.length + 1 < 2 ^ 31) :
    Holds (c.addField field)
      { m with program := q, fieldNames := m.fieldNames ++ [field.name], afterUnnamed := false } := by
  have hordinary : field.isStorage = false := by
    rw [CField.isStorage, hname.not_isPrefixOf, Bool.and_false]
  constructor
  · exact h.attributes
  · simpa [or_imp, forall_and, hstatic] using h.notStatic
  · simpa [hordinary] using h.storages
  · simpa [hordinary] using h.others
  · simpa [or_imp, forall_and, hname] using h.identifiers
  · exact fun a ha => (h.placed a ha).mono (List.subset_append_left _ _)
  · simpa using hlen

theorem isStorage_of_name {num : Nat} (hname : field.name = storageName num)
    (hstatic : field.isStatic = false) : field.isStorage = true := by
  rw [CField.isStorage, hname, isPrefixOf_storageName, hstatic]
  rfl

theorem addStorage (h : Holds c m)
    (hname : field.name = storageName (1 + c.fields.countP CField.isStorage))
    (hstatic : field.isStatic = false) (hlen : c.fields.length + 1 < 2 ^ 31) :
    Holds (c.addField field) m := by
  have hstorage := isStorage_of_name hname hstatic
  constructor
  · exact h.attributes
  · simpa [or_imp, forall_and, hstatic] using h.notStatic
  · simp [hstorage, h.storages, List.range_succ, hname, Nat.add_comm 1]
  · simpa [hstorage] using h.others
  · exact h.identifiers
  · exact fun a ha => (h.placed a ha).mono (List.subset_append_left _ _)
  · simpa using hlen

theorem addBits {a : Allotment} {b : Bool} (h : Holds c m) (ha : a.Placed c.fields) :
    Holds (c.bitFieldAdd a.name a.storage a.start a.size)
      { m with program := q, allotments := m.allotments ++ [a], afterUnnamed := b } := by
  constructor
  · rw [CClass.attributes_bitFieldAdd, h.attributes, List.filterMap_append, List.map_append]
  · rw [CClass.fields_bitFieldAdd]
    exact h.notStatic
  · rw [CClass.fields_bitFieldAdd]
    exact h.storages
  · rw [CClass.fields_bitFieldAdd]
    exact h.others
  · exact h.identifiers
  · rw [CClass.fields_bitFieldAdd]
    simpa [or_imp, forall_and, ha] using h.placed
  · rw [CClass.fields_bitFieldAdd]
    exact h.count_lt

/-- A declaration keeps what the class holds. -/
theorem declares {d : Declaration} (h : Holds c m) (hd : d.Legal)
    (hlen : c.fields.length + 1 < 2 ^ 31) (hstep : Declares c m q d c' m') : Holds c' m' := by
  cases hstep with
  | error name type => exact ⟨h.1, h.2, h.3, h.4, h.5, h.6, h.7⟩
  | field type field hstatic => exact h.addOrdinary hstatic hd hlen
  | reuse name type numBits maxBits before field hfields hstorage hsame hspace =>
    obtain ⟨hname, hwidth, hpos, -⟩ := hd
    have hmem : field ∈ c.fields := by
      rw [hfields]
      exact List.mem_append_right _ (List.mem_singleton_self _)
    have hfieldWidth := bitFieldMaxSize_of_identical hwidth hsame
    have hused := h.leftOver_le_width hmem hstorage hfieldWidth
    have hleft : (maxBits - c.bitFieldLeftOver field.name).toNat =
        maxBits.toNat - (c.bitFieldLeftOver field.name).toNat := BitVec.toNat_sub_of_le hused
    rw [BitVec.le_def, hleft] at hspace
    exact h.addBits (a := ⟨name, field.name, c.bitFieldLeftOver field.name, numBits, maxBits⟩)
      ⟨hname, hpos, by simp only [Allotment.limit]; omega, field, hmem, hstorage, rfl, hfieldWidth⟩
  | fresh name numBits maxBits field hname hstatic =>
    obtain ⟨hident, hwidth, hpos, hle⟩ := hd
    exact (h.addStorage hname hstatic hlen).addBits (a := ⟨name, field.name, 0, numBits, maxBits⟩)
      ⟨hident, hpos, by simpa [Allotment.limit] using BitVec.le_def.1 hle, field, by simp,
        isStorage_of_name hname hstatic, rfl, hwidth⟩

end Holds

theorem Declares.length_le {c c' : CClass} {m m' : Members} {q : CProgram} {d : Declaration}
    (h : Declares c m q d c' m') : c'.fields.length ≤ c.fields.length + 1 := by
  cases h <;> simp

end Pnet.Cscc
