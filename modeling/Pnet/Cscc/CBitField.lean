import Pnet.Cscc.CArray
import Pnet.Image.CompressSound

/-! Fields and bit fields of C structures. The bits that are taken in a storage field are found
again from the `BitFieldAttribute` values of the class. -/
namespace Pnet.Cscc
open Pnet.Image

/-! ### Attribute values -/

/-- The value of a `BitFieldAttribute`. -/
structure BitFieldValue where
  fieldName : List ILUInt8
  storageName : List ILUInt8
  start : ILUInt32
  size : ILUInt32
deriving DecidableEq, Repr

def ilWriteUInt32 (value : ILUInt32) : List ILUInt8 :=
  [value.setWidth 8, (value >>> 8).setWidth 8, (value >>> 16).setWidth 8, (value >>> 24).setWidth 8]

def serializeString (str : List ILUInt8) : List ILUInt8 :=
  ilMetaCompressData (BitVec.ofNat 32 str.length) ++ str

/-- The bytes of an attribute value. -/
def BitFieldValue.blob (value : BitFieldValue) : List ILUInt8 :=
  [0x01, 0x00] ++ serializeString value.fieldName ++ serializeString value.storageName ++
    ilWriteUInt32 value.start ++ ilWriteUInt32 value.size ++ [0x00, 0x00]

/-- A null string is empty; a length that is negative as an `int` is an error. -/
def ilSerializeReaderGetString (data : List ILUInt8) : Option (List ILUInt8 × List ILUInt8) :=
  if data.head? = some 0xFF then some ([], data.tail)
  else
    let (length, reader) := ilMetaUncompressData ⟨data, false⟩
    if reader.error ∨ reader.data.length < length.toNat ∨ length.toInt < 0 then none
    else some (reader.data.take length.toNat, reader.data.drop length.toNat)

/-- A parameter of four bytes, when there are as many. -/
def ilSerializeReaderGetInt32 : List ILUInt8 → Option (ILUInt32 × List ILUInt8)
  | a :: b :: c :: d :: data =>
    some (a.setWidth 32 ||| b.setWidth 32 <<< 8 ||| c.setWidth 32 <<< 16 ||| d.setWidth 32 <<< 24,
      data)
  | _ => none

def ilSerializeReaderInit : List ILUInt8 → Option (List ILUInt8)
  | 0x01 :: 0x00 :: data => some data
  | _ => none

/-- The loops over the attributes skip a value where any of these fails. -/
def readBitField (blob : List ILUInt8) : Option BitFieldValue := do
  let data ← ilSerializeReaderInit blob
  let (fieldName, data) ← ilSerializeReaderGetString data
  let (storageName, data) ← ilSerializeReaderGetString data
  let (start, data) ← ilSerializeReaderGetInt32 data
  let (size, _) ← ilSerializeReaderGetInt32 data
  some ⟨fieldName, storageName, start, size⟩

/-! ### Storage fields -/

def bitFieldPrefix : List ILUInt8 := chars ".bitfield-"

def CField.isStorage (field : CField) : Bool :=
  !field.isStatic && bitFieldPrefix.isPrefixOf field.name

def storageName (num : Nat) : List ILUInt8 := bitFieldPrefix ++ decimal num

/-- Where the first free bit is after the bit field of an attribute. -/
def nextStart (name : List ILUInt8) (start : ILUInt32) (blob : List ILUInt8) : ILUInt32 :=
  match readBitField blob with
  | some value =>
    if value.storageName = name ∧ start < value.start + value.size then value.start + value.size
    else start
  | none => start

/-- Where the bits that are left over start; their number is what is left of `maxBits`. -/
def CClass.bitFieldLeftOver (c : CClass) (name : List ILUInt8) : ILUInt32 :=
  c.attributes.foldl (nextStart name) 0

/-- An anonymous bit field has no attribute. -/
def CClass.bitFieldAdd (c : CClass) (fieldName : Option (List ILUInt8)) (storage : List ILUInt8)
    (posn numBits : ILUInt32) : CClass :=
  match fieldName with
  | some name =>
    { c with attributes := c.attributes ++ [BitFieldValue.blob ⟨name, storage, posn, numBits⟩] }
  | none => c

/-- What the search for a storage field ends with. -/
inductive StorageSearch where
  | found (storage : List ILUInt8) (posn : ILUInt32)
  | next (num : Nat)
deriving DecidableEq, Repr

def StorageSearch.isFound : StorageSearch → Bool
  | .found .. => true
  | .next _ => false

/-- Only the last field of the class can have space for another bit field. -/
def CClass.findStorage (c : CClass) (fieldType : ILType) (numBits maxBits : ILUInt32) :
    List CField → Nat → StorageSearch
  | [], num => .next num
  | field :: rest, num =>
    if field.isStorage then
      let start := c.bitFieldLeftOver field.name
      if rest.isEmpty ∧ ilTypeIdentical fieldType field.signature ∧ numBits ≤ maxBits - start then
        .found field.name start
      else c.findStorage fieldType numBits maxBits rest (num + 1)
    else c.findStorage fieldType numBits maxBits rest num

def CClass.searchStorage (c : CClass) (fieldType : ILType) (numBits maxBits : ILUInt32) :
    StorageSearch :=
  c.findStorage fieldType numBits maxBits c.fields 1

/-- The storage field and the position in it; a new one is used from its first bit. -/
def StorageSearch.place : StorageSearch → List ILUInt8 × ILUInt32
  | .found storage posn => (storage, posn)
  | .next num => (storageName num, 0)

/-- The widths of the types that a bit field can have. -/
def elementBits : Nat → Option ILUInt32
  | ElemType.i1 | ElemType.u1 => some 8
  | ElemType.i2 | ElemType.u2 | ElemType.char => some 16
  | ElemType.i4 | ElemType.u4 => some 32
  | ElemType.i8 | ElemType.u8 => some 64
  | _ => none

def bitFieldMaxSize (type : ILType) : Option ILUInt32 :=
  match ilTypeStripPrefixes type with
  | .primitive elem => elementBits elem
  | _ => none

/-! ### Declarations -/

namespace CProgram

variable (p : CProgram)

def modifyClass (info : ClassId) (f : CClass → CClass) : CProgram :=
  { p with classes := p.classes.modify info f }

/-- An open array in a structure is one without elements. -/
def closedFieldType (fuel : Nat) (fieldType : ILType) : Option (ILType × CProgram) :=
  if p.cTypeIsOpenArray fieldType then p.cTypeCreateArray fuel (p.cTypeGetElemType fieldType) 0
  else some (fieldType, p)

/-- The fields of a union all start at its first byte. -/
def newField (info : ClassId) (name : List ILUInt8) (type : ILType) : CField where
  name := name
  signature := type
  fieldLayout := if p.cTypeIsUnion (.valueType info) then some 0 else none

/-- Whether the field is defined; the compiler stops where there is nothing. -/
def cTypeDefineField (fuel : Nat) (info : ClassId) (fieldName : List ILUInt8)
    (fieldType : ILType) : Option (Bool × CProgram) := do
  let (fieldType, p) ← p.closedFieldType fuel fieldType
  let layout ← p.cTypeGetLayoutInfo fuel fieldType
  if layout.category = .noLayout then some (false, p)
  else
    let field := p.newField info fieldName fieldType
    some (true, p.modifyClass info fun c => { c with fields := c.fields ++ [field] })

def cTypeDefineBitField (fuel : Nat) (info : ClassId) (fieldName : Option (List ILUInt8))
    (fieldType : ILType) (numBits maxBits : ILUInt32) : Option (Bool × CProgram) :=
  match (p.cls info).searchStorage fieldType numBits maxBits with
  | .found storage posn =>
    some (true, p.modifyClass info fun c => c.bitFieldAdd fieldName storage posn numBits)
  | .next num => do
    let (defined, p) ← p.cTypeDefineField fuel info (storageName num) fieldType
    if defined then
      some (true, p.modifyClass info fun c => c.bitFieldAdd fieldName (storageName num) 0 numBits)
    else some (false, p)

/-- The field, with the start and size of a bit field in it; the size of an ordinary field is
zero. -/
def cTypeLookupField (info : ClassId) (fieldName : List ILUInt8) :
    Option (CField × ILUInt32 × ILUInt32) :=
  let fields := (p.cls info).instanceFields
  match fields.find? fun field => field.name == fieldName with
  | some field => some (field, 0, 0)
  | none =>
    match ((p.cls info).attributes.filterMap readBitField).find? fun value =>
        value.fieldName == fieldName with
    | some value =>
      (fields.find? fun field => field.name == value.storageName).map fun field =>
        (field, value.start, value.size)
    | none => none

end CProgram

end Pnet.Cscc

/-! ### The scan

What the scans over the attributes and the fields of a class find. -/
namespace Pnet.Cscc
open Pnet.Image Pnet.Lib

/-! ### Attribute values -/

/-- A leading byte whose bit `k` is clear. -/
theorem leadingByte_ne {data mask : ILUInt32} {s k : Nat} (hdata : data.toNat < 2 ^ (s + k))
    (hk : k < 8) (hmask : mask.getLsbD k = false) :
    ((data >>> s) ||| mask).setWidth 8 ≠ (0xFF : ILUInt8) := by
  intro h
  have hset : (0xFF : ILUInt8).getLsbD k = true := by
    rw [show (0xFF : ILUInt8) = BitVec.allOnes 8 from rfl, BitVec.getLsbD_allOnes, decide_eq_true hk]
  have hclear : data.getLsbD (s + k) = false := Nat.testBit_lt_two_pow hdata
  rw [← h, BitVec.getLsbD_setWidth, BitVec.getLsbD_or, BitVec.getLsbD_ushiftRight, hclear,
    hmask] at hset
  simp at hset

/-- The length of a string never looks like the null string. -/
theorem head?_ilMetaCompressData (data : ILUInt32) (rest : List ILUInt8) :
    (ilMetaCompressData data ++ rest).head? ≠ some 0xFF := by
  unfold ilMetaCompressData
  split_ifs with h1 h2 h3 <;>
    simp only [List.cons_append, List.head?_cons, ne_eq, Option.some.injEq]
  · intro h
    have hnat := congrArg BitVec.toNat h
    rw [BitVec.lt_def] at h1
    simp at hnat h1
    omega
  · exact leadingByte_ne (k := 6) h2 (by decide) (by decide)
  · exact leadingByte_ne (k := 5) h3 (by decide) (by decide)
  · decide

theorem ilSerializeReaderGetString_serializeString {str : List ILUInt8} (hlen : str.length < 2 ^ 31)
    (rest : List ILUInt8) :
    ilSerializeReaderGetString (serializeString str ++ rest) = some (str, rest) := by
  have hnat : (BitVec.ofNat 32 str.length).toNat = str.length := by
    rw [BitVec.toNat_ofNat, Nat.mod_eq_of_lt (by omega)]
  have hsign : ¬(BitVec.ofNat 32 str.length).toInt < 0 := by
    rw [BitVec.toInt_eq_toNat_of_lt (by rw [hnat]; omega)]
    omega
  rw [serializeString, List.append_assoc, ilSerializeReaderGetString,
    if_neg (head?_ilMetaCompressData _ _), ilMetaUncompressData_compressData]
  simp only [hnat]
  rw [if_neg (by simp [hsign])]
  simp

theorem ilSerializeReaderGetInt32_ilWriteUInt32 (value : ILUInt32) (rest : List ILUInt8) :
    ilSerializeReaderGetInt32 (ilWriteUInt32 value ++ rest) = some (value, rest) := by
  refine congrArg (fun v => some (v, rest)) (BitVec.eq_of_toNat_eq ?_)
  have hbyte (k : Nat) : ((value >>> k).setWidth 8 : ILUInt8).toNat = value.toNat / 2 ^ k % 2 ^ 8 := by
    rw [BitVec.toNat_setWidth, BitVec.toNat_ushiftRight, Nat.shiftRight_eq_div_pow]
  have hlow : (value.setWidth 8 : ILUInt8).toNat = value.toNat % 2 ^ 8 := BitVec.toNat_setWidth ..
  have hlt := value.isLt
  rw [ByteJoin.toNat_four _ _ _ _ (le_refl _), hlow, hbyte, hbyte, hbyte]
  omega

/-- The names that the compiler can write and read back. -/
structure BitFieldValue.Readable (value : BitFieldValue) : Prop where
  fieldName : value.fieldName.length < 2 ^ 31
  storageName : value.storageName.length < 2 ^ 31

theorem readBitField_blob {value : BitFieldValue} (h : value.Readable) :
    readBitField value.blob = some value := by
  have hinit : ilSerializeReaderInit value.blob = some (serializeString value.fieldName ++
      (serializeString value.storageName ++ (ilWriteUInt32 value.start ++
        (ilWriteUInt32 value.size ++ [0x00, 0x00])))) := by
    simp [BitFieldValue.blob, ilSerializeReaderInit]
  rw [readBitField, hinit]
  simp only [Option.bind_eq_bind, Option.bind_some,
    ilSerializeReaderGetString_serializeString h.fieldName,
    ilSerializeReaderGetString_serializeString h.storageName,
    ilSerializeReaderGetInt32_ilWriteUInt32]

/-! ### The bits that are left over -/

/-- One past the last bit. -/
def BitFieldValue.limit (value : BitFieldValue) : Nat := value.start.toNat + value.size.toNat

section LeftOver

variable {name : List ILUInt8} {values : List BitFieldValue}

theorem toNat_nextStart {value : BitFieldValue} (h : value.Readable)
    (hlimit : value.limit < 2 ^ 32) (start : ILUInt32) :
    (nextStart name start value.blob).toNat =
      if value.storageName = name then max start.toNat value.limit else start.toNat := by
  have hsum : (value.start + value.size).toNat = value.limit := by
    rw [BitVec.toNat_add, ← BitFieldValue.limit, Nat.mod_eq_of_lt hlimit]
  rw [nextStart, readBitField_blob h]
  by_cases hname : value.storageName = name
  · simp only [hname, true_and, ↓reduceIte, BitVec.lt_def, hsum]
    split_ifs with hlt
    · rw [hsum, max_eq_right hlt.le]
    · rw [max_eq_left (not_lt.1 hlt)]
  · simp only [hname, false_and, ↓reduceIte]

variable (hread : ∀ value ∈ values, value.Readable) (hlimit : ∀ value ∈ values, value.limit < 2 ^ 32)
include hread hlimit

theorem le_foldl_nextStart (start : ILUInt32) :
    let after := ((values.map BitFieldValue.blob).foldl (nextStart name) start).toNat
    start.toNat ≤ after ∧ ∀ value ∈ values, value.storageName = name → value.limit ≤ after := by
  induction values generalizing start with
  | nil => exact ⟨le_refl _, fun _ h => absurd h List.not_mem_nil⟩
  | cons value values ih =>
    obtain ⟨hhead, htail⟩ := List.forall_mem_cons.1 hread
    obtain ⟨hheadLimit, htailLimit⟩ := List.forall_mem_cons.1 hlimit
    have hnext := @toNat_nextStart name value hhead hheadLimit start
    obtain ⟨hle, hall⟩ := ih htail htailLimit (nextStart name start value.blob)
    rw [List.map_cons, List.foldl_cons]
    rw [hnext] at hle
    constructor
    · refine le_trans ?_ hle
      split_ifs
      · exact le_max_left _ _
      · exact le_refl _
    · refine List.forall_mem_cons.2 ⟨fun hname => ?_, hall⟩
      rw [if_pos hname] at hle
      exact (le_max_right _ _).trans hle

theorem foldl_nextStart_le {bound : Nat}
    (hbound : ∀ value ∈ values, value.storageName = name → value.limit ≤ bound)
    (start : ILUInt32) (hstart : start.toNat ≤ bound) :
    ((values.map BitFieldValue.blob).foldl (nextStart name) start).toNat ≤ bound := by
  induction values generalizing start with
  | nil => exact hstart
  | cons value values ih =>
    obtain ⟨hhead, htail⟩ := List.forall_mem_cons.1 hread
    obtain ⟨hheadLimit, htailLimit⟩ := List.forall_mem_cons.1 hlimit
    obtain ⟨hheadBound, htailBound⟩ := List.forall_mem_cons.1 hbound
    refine ih htail htailLimit htailBound _ ?_
    rw [toNat_nextStart hhead hheadLimit]
    split_ifs with hname
    · exact max_le hstart (hheadBound hname)
    · exact hstart

end LeftOver

/-! ### Storage fields -/

theorem CClass.findStorage_cases (c : CClass) (fieldType : ILType) (numBits maxBits : ILUInt32)
    (fields : List CField) (num : Nat) :
    (∃ before field, fields = before ++ [field] ∧ field.isStorage = true ∧
        ilTypeIdentical fieldType field.signature = true ∧
        numBits ≤ maxBits - c.bitFieldLeftOver field.name ∧
        c.findStorage fieldType numBits maxBits fields num =
          .found field.name (c.bitFieldLeftOver field.name)) ∨
      c.findStorage fieldType numBits maxBits fields num =
        .next (num + fields.countP CField.isStorage) := by
  induction fields generalizing num with
  | nil => exact .inr rfl
  | cons field rest ih =>
    simp only [CClass.findStorage]
    split_ifs with hstorage hspace
    · obtain ⟨hlast, hsame, hleft⟩ := hspace
      rw [List.isEmpty_iff] at hlast
      exact .inl ⟨[], field, by rw [hlast, List.nil_append], hstorage, hsame, hleft, rfl⟩
    · obtain ⟨before, last, hrest, h⟩ | h := ih (num + 1)
      · exact .inl ⟨field :: before, last, by rw [hrest, List.cons_append], h⟩
      · rw [h, List.countP_cons_of_pos hstorage, Nat.add_right_comm, Nat.add_assoc]
        exact .inr rfl
    · obtain ⟨before, last, hrest, h⟩ | h := ih num
      · exact .inl ⟨field :: before, last, by rw [hrest, List.cons_append], h⟩
      · rw [h, List.countP_cons_of_neg hstorage]
        exact .inr rfl
/-! ### What a definition changes -/

section Definition

variable {p q : CProgram} {fuel : Nat} {info : ClassId}

theorem cls_modifyClass (hinfo : info < p.classes.length) (f : CClass → CClass) :
    (p.modifyClass info f).cls info = f (p.cls info) := by
  simp [CProgram.cls, CProgram.modifyClass, hinfo]

@[simp] theorem length_modifyClass (f : CClass → CClass) :
    (p.modifyClass info f).classes.length = p.classes.length := by
  simp [CProgram.modifyClass]

theorem sameClasses_closedFieldType {fieldType type : ILType}
    (h : p.closedFieldType fuel fieldType = some (type, q)) : SameClasses p q := by
  rw [CProgram.closedFieldType] at h
  split at h
  · exact sameClasses_createArray h
  · cases h
    exact .refl p

/-- A field that is defined is added to its class, with nothing else changed in it. -/
theorem cTypeDefineField_cases {name : List ILUInt8} {type : ILType} {defined : Bool}
    (hinfo : info < p.classes.length)
    (h : p.cTypeDefineField fuel info name type = some (defined, q)) :
    p.classes.length ≤ q.classes.length ∧
      match defined with
      | true => ∃ field : CField, field.name = name ∧ field.isStatic = false ∧
          q.cls info = { p.cls info with fields := (p.cls info).fields ++ [field] }
      | false => q.cls info = p.cls info := by
  rw [CProgram.cTypeDefineField] at h
  obtain ⟨⟨fieldType, r⟩, hr, h⟩ := Option.bind_eq_some_iff.1 h
  have hsame := sameClasses_closedFieldType hr
  obtain ⟨layout, -, h⟩ := Option.bind_eq_some_iff.1 h
  have hinfo' := hinfo.trans_le hsame.length_le
  split at h <;> cases h
  · exact ⟨hsame.length_le, hsame.cls_eq info hinfo⟩
  · rw [length_modifyClass, cls_modifyClass hinfo', hsame.cls_eq info hinfo]
    exact ⟨hsame.length_le, r.newField info name fieldType, rfl, rfl, rfl⟩

theorem category_primitiveInfo (elem : Nat) : (primitiveInfo elem).category ≠ .noLayout := by
  unfold primitiveInfo
  split <;> exact TypeCategory.noConfusion

theorem closedFieldType_primitive {type : ILType} {elem : Nat}
    (htype : ilTypeStripPrefixes type = .primitive elem) :
    p.closedFieldType fuel type = some (type, p) := by
  simp [CProgram.closedFieldType, CProgram.cTypeIsOpenArray, CProgram.valueClass, htype]

theorem cTypeDefineField_zero {name : List ILUInt8} {type : ILType} {elem : Nat}
    (htype : ilTypeStripPrefixes type = .primitive elem) :
    p.cTypeDefineField 0 info name type = none := by
  rw [CProgram.cTypeDefineField, closedFieldType_primitive htype]
  rfl

/-- The types of bit fields always have a layout. -/
theorem cTypeDefineField_primitive {name : List ILUInt8} {type : ILType} {elem : Nat}
    (htype : ilTypeStripPrefixes type = .primitive elem) :
    p.cTypeDefineField (fuel + 1) info name type = some (true,
      p.modifyClass info fun c => { c with fields := c.fields ++ [p.newField info name type] }) := by
  have hlayout : p.cTypeGetLayoutInfo (fuel + 1) type = some (primitiveInfo elem) := by
    rw [CProgram.cTypeGetLayoutInfo, htype]
  rw [CProgram.cTypeDefineField, closedFieldType_primitive htype, Option.bind_eq_bind, Option.bind_some]
  simp only [hlayout, Option.bind_eq_bind, Option.bind_some]
  rw [if_neg (category_primitiveInfo elem)]

end Definition

end Pnet.Cscc
