import Pnet.Image.Types

/-! The classes that the C compiler makes: tagged types, enumerations and arrays. -/
namespace Pnet.Cscc
open Pnet.Image

/-- The bytes of a string constant of the source. -/
def chars (s : String) : List ILUInt8 := s.toList.map fun c => BitVec.ofNat 8 c.toNat

/-- The kinds that have an attribute bit. -/
inductive TagKind where
  | struct | union | enum
deriving DecidableEq, Repr

structure CField where
  name : List ILUInt8
  signature : ILType
  isStatic : Bool := false
  isPrivate : Bool := false
  isLiteral : Bool := false
  isRTSpecialName : Bool := false
  fieldLayout : Option ILUInt32 := none
deriving Repr

/-- What is read of the expression for the size of an array: its name, and its value where it
is a constant. -/
structure SizeNode where
  name : List ILUInt8
  constant : Option ILUInt32
deriving DecidableEq, Repr

/-- `isGlobal` in the global scope of the image; `isRef` until the class is defined; `isEnum` when
the parent is `System.Enum`. `attributes` has the values of the `BitFieldAttribute` instances, in
order. -/
structure CClass where
  name : List ILUInt8
  nameSpace : Option (List ILUInt8) := none
  assembly : Option (List ILUInt8) := none
  isGlobal : Bool := true
  kind : Option TagKind := none
  isEnum : Bool := false
  isRef : Bool := false
  isExplicitLayout : Bool := false
  classSize : Option ILUInt32 := none
  userData : Option SizeNode := none
  fields : List CField := []
  attributes : List (List ILUInt8) := []
deriving Repr

/-- The fields that `CTypeNextField` goes over. -/
def CClass.instanceFields (c : CClass) : List CField := c.fields.filter fun field => !field.isStatic

def CClass.isArray (c : CClass) : Bool := (chars "array ").isPrefixOf c.name

def CClass.findArrayElemField (c : CClass) : Option CField :=
  c.fields.find? fun field => field.name == chars "elem__"

def CClass.isOpenArray (c : CClass) : Bool :=
  c.isArray && match c.findArrayElemField with
    | some field => field.isPrivate
    | none => false

/-- The classes of a compilation, each at its number. -/
structure CProgram where
  classes : List CClass
deriving Repr

namespace CProgram

variable (p : CProgram)

def cls (info : ClassId) : CClass := p.classes.getD info { name := [] }

/-- The class of a value type. -/
def valueClass (type : ILType) : Option CClass :=
  match ilTypeStripPrefixes type with
  | .valueType info => some (p.cls info)
  | _ => none

def cTypeAlreadyDefined : ILType → Bool
  | .valueType info => !(p.cls info).isRef
  | _ => false

def cTypeIsStruct (type : ILType) : Bool :=
  (p.valueClass type).any fun c => c.kind == some .struct

def cTypeIsUnion (type : ILType) : Bool :=
  (p.valueClass type).any fun c => c.kind == some .union

def cTypeIsEnum (type : ILType) : Bool :=
  (p.valueClass type).any fun c => c.kind == some .enum || c.isEnum

def cTypeIsArray (type : ILType) : Bool := (p.valueClass type).any CClass.isArray

def cTypeIsOpenArray (type : ILType) : Bool := (p.valueClass type).any CClass.isOpenArray

def ilTypeGetEnumType (type : ILType) : ILType :=
  match type with
  | .valueType info =>
    if (p.cls info).isEnum then
      match (p.cls info).instanceFields.find? (·.isRTSpecialName) with
      | some field => ilTypeStripPrefixes field.signature
      | none => type
    else type
  | _ => type

def checkForModifier (name nameSpace : List ILUInt8) : ILType → Bool
  | .cmodReqd info type | .cmodOpt info type =>
    if (p.cls info).name = name ∧ (p.cls info).nameSpace = some nameSpace then true
    else checkForModifier name nameSpace type
  | _ => false

def cTypeIsFunctionPtr (type : ILType) : Bool :=
  p.checkForModifier (chars "IsFunctionPointer") (chars "OpenSystem.C") type &&
    match ilTypeStripPrefixes type with
    | .signature kind .. => kind &&& ilTypeComplexMethod != 0
    | _ => false

/-- The prefixes of the element type are left out, except for a function pointer. -/
def cTypeGetElemType (type : ILType) : ILType :=
  match p.valueClass type with
  | some c =>
    if c.isArray then
      match c.findArrayElemField with
      | some field =>
        if p.cTypeIsFunctionPtr field.signature then field.signature
        else ilTypeStripPrefixes field.signature
      | none => .invalid
    else .invalid
  | none => .invalid

end CProgram

end Pnet.Cscc

/-! ### Layout

Compile-time layout of C types, and the classes of arrays. -/
namespace Pnet.Cscc
open Pnet.Image

inductive TypeCategory where
  | fixed | dynamic | complex | noLayout
deriving DecidableEq, Repr

namespace CAlign

def byte : ILUInt32 := 0x0001
def align2 : ILUInt32 := 0x0002
def align4 : ILUInt32 := 0x0004
def align8 : ILUInt32 := 0x0008
def align16 : ILUInt32 := 0x0010
def short : ILUInt32 := 0x0020
def int : ILUInt32 := 0x0040
def long : ILUInt32 := 0x0080
def float : ILUInt32 := 0x0100
def double : ILUInt32 := 0x0200
def pointer : ILUInt32 := 0x0400
def unknown : ILUInt32 := 0x0800

end CAlign

def ctypeDynamic : ILUInt32 := 0xFFFFFFFF
def ctypeUnknown : ILUInt32 := 0xFFFFFFFE

structure CTypeLayoutInfo where
  category : TypeCategory
  size : ILUInt32
  alignFlags : ILUInt32
  measureType : ILType
deriving Repr

/-- Zero when the alignment is unknown. -/
def cTypeGetMaxAlign (alignFlags : ILUInt32) : ILUInt32 :=
  if alignFlags &&& CAlign.unknown ≠ 0 then 0
  else if alignFlags &&& CAlign.align16 ≠ 0 then 16
  else if alignFlags &&& (CAlign.long ||| CAlign.double ||| CAlign.pointer ||| CAlign.align8) ≠ 0
    then 8
  else if alignFlags &&& (CAlign.int ||| CAlign.float ||| CAlign.align4) ≠ 0 then 4
  else if alignFlags &&& (CAlign.short ||| CAlign.align2) ≠ 0 then 2
  else 1

/-- Pointers, object references and whatever is not known are measured as `System.IntPtr`. -/
def pointerInfo : CTypeLayoutInfo :=
  ⟨.dynamic, ctypeDynamic, CAlign.pointer, .primitive ElemType.i⟩

def primitiveInfo (elem : Nat) : CTypeLayoutInfo :=
  let type := ILType.primitive elem
  match elem with
  | ElemType.void | ElemType.boolean | ElemType.i1 | ElemType.u1 => ⟨.fixed, 1, CAlign.byte, type⟩
  | ElemType.char | ElemType.i2 | ElemType.u2 => ⟨.fixed, 2, CAlign.short, type⟩
  | ElemType.i4 | ElemType.u4 => ⟨.fixed, 4, CAlign.int, type⟩
  | ElemType.i8 | ElemType.u8 => ⟨.fixed, 8, CAlign.long, type⟩
  | ElemType.i | ElemType.u => ⟨.dynamic, ctypeDynamic, CAlign.pointer, type⟩
  | ElemType.r4 => ⟨.fixed, 4, CAlign.float, type⟩
  | ElemType.r8 => ⟨.fixed, 8, CAlign.double, type⟩
  | ElemType.r | ElemType.typedByRef => ⟨.dynamic, ctypeDynamic, CAlign.unknown, type⟩
  | _ => pointerInfo

/-! ### Structures and unions -/

/-- What the scan over the fields has found so far; the three flags are the category bits. -/
structure FieldScan where
  noLayout : Bool := false
  complex : Bool := false
  dynamic : Bool := false
  size : ILUInt32 := 0
  alignFlags : ILUInt32 := 0
  first : Bool := true
deriving DecidableEq, Repr

def FieldScan.addField (isUnion : Bool) (scan : FieldScan) (fieldInfo : CTypeLayoutInfo) :
    FieldScan :=
  let wasFirst := scan.first
  let scan := { scan with
    first := false
    alignFlags := scan.alignFlags ||| fieldInfo.alignFlags }
  match fieldInfo.category with
  | .noLayout => { scan with noLayout := true }
  | .complex => { scan with complex := true }
  | .dynamic => { scan with dynamic := true }
  | .fixed =>
    let maxAlign := cTypeGetMaxAlign fieldInfo.alignFlags
    if maxAlign = 0 then { scan with dynamic := true }
    else if isUnion then
      if wasFirst ∨ scan.size < fieldInfo.size then { scan with size := fieldInfo.size } else scan
    else if scan.size % maxAlign ≠ 0 then
      { scan with
        dynamic := true
        size := scan.size + (maxAlign - scan.size % maxAlign) + fieldInfo.size }
    else { scan with size := scan.size + fieldInfo.size }

/-- An empty structure has one byte; a size that is not aligned is dynamic. -/
def FieldScan.finish (type : ILType) (scan : FieldScan) : CTypeLayoutInfo :=
  let scan := if scan.first then
    { scan with size := 1, alignFlags := scan.alignFlags ||| CAlign.byte } else scan
  let maxAlign := cTypeGetMaxAlign scan.alignFlags
  let dynamic := scan.dynamic || maxAlign == 0 || scan.size % maxAlign != 0
  if scan.noLayout then ⟨.noLayout, ctypeUnknown, scan.alignFlags, type⟩
  else if scan.complex then ⟨.complex, ctypeDynamic, scan.alignFlags, type⟩
  else if dynamic then ⟨.dynamic, ctypeDynamic, scan.alignFlags, type⟩
  else ⟨.fixed, scan.size, scan.alignFlags, type⟩

namespace CProgram

variable (p : CProgram)

def noLayoutInfo (type : ILType) : CTypeLayoutInfo :=
  ⟨.noLayout, ctypeUnknown, CAlign.unknown, type⟩

def structOrUnionLayout (layoutInfo : ILType → Option CTypeLayoutInfo) (type : ILType)
    (info : ClassId) (isUnion : Bool) : Option CTypeLayoutInfo :=
  if !p.cTypeAlreadyDefined type then some (noLayoutInfo type)
  else do
    let fields ← ((p.cls info).instanceFields.map CField.signature).mapM layoutInfo
    some ((fields.foldl (FieldScan.addField isUnion) {}).finish type)

def arrayInfo (c : CClass) (type : ILType) (elem : CTypeLayoutInfo) : CTypeLayoutInfo :=
  match elem.category with
  | .fixed =>
    match c.classSize with
    | some size => { elem with size := size, measureType := type }
    | none => { elem with category := .complex, size := ctypeDynamic, measureType := type }
  | .noLayout => { elem with measureType := type }
  | _ => { elem with category := .complex, size := ctypeDynamic, measureType := type }

/-- The layout of a value type; `layoutInfo` is that of the types it is made of. -/
def valueTypeInfo (layoutInfo : ILType → Option CTypeLayoutInfo) (info : ClassId) :
    Option CTypeLayoutInfo :=
  let type := ILType.valueType info
  if p.cTypeIsEnum type then
    if p.cTypeAlreadyDefined type then layoutInfo (p.ilTypeGetEnumType type)
    else some (noLayoutInfo type)
  else if p.cTypeIsStruct type then p.structOrUnionLayout layoutInfo type info false
  else if p.cTypeIsUnion type then p.structOrUnionLayout layoutInfo type info true
  else if p.cTypeIsOpenArray type then
    (layoutInfo (p.cTypeGetElemType type)).map fun elem =>
      { elem with category := .noLayout, size := ctypeUnknown, measureType := type }
  else if p.cTypeIsArray type then
    (layoutInfo (p.cTypeGetElemType type)).map (arrayInfo (p.cls info) type)
  else some ⟨.dynamic, ctypeDynamic, CAlign.unknown, type⟩

/-- `fuel` bounds the depth of the calls: a structure within itself has no end of them. -/
def cTypeGetLayoutInfo : Nat → ILType → Option CTypeLayoutInfo
  | 0, _ => none
  | fuel + 1, type =>
    match ilTypeStripPrefixes type with
    | .primitive elem => some (primitiveInfo elem)
    | .valueType info => p.valueTypeInfo (cTypeGetLayoutInfo fuel) info
    | _ => some pointerInfo

end CProgram

/-! ### Arrays -/

/-- The size has to fit in the class's metadata. -/
def arrayTooLarge (layout : CTypeLayoutInfo) (size : ILUInt32) : Bool :=
  2 ^ 31 - 1 < layout.size.toNat * size.toNat

/-- Whether the size is in the class's metadata. -/
def needClassLayout (layout : CTypeLayoutInfo) (size : ILUInt32) (sizeNode : Option SizeNode)
    (isOpen : Bool) : Bool :=
  layout.category == .fixed && sizeNode.isNone && !isOpen && size != 0

/-- The class that `CreateArray` makes when there is none of the name, or nothing. -/
def newArrayClass (name : List ILUInt8) (elemType : ILType) (layout : CTypeLayoutInfo)
    (size : ILUInt32) (sizeNode : Option SizeNode) (isOpen : Bool)
    (constantNode : ILUInt32 → SizeNode) : Option CClass :=
  let needed := needClassLayout layout size sizeNode isOpen
  if layout.category = .noLayout then none
  else if needed && arrayTooLarge layout size then none
  else some {
    name := name
    isExplicitLayout := needed
    classSize := if needed then some (layout.size * size) else none
    userData := if !needed && sizeNode.isNone && !isOpen then some (constantNode size) else sizeNode
    fields := [{
      name := chars "elem__"
      signature := elemType
      isStatic := isOpen
      isPrivate := isOpen
      fieldLayout := if needed then some 0 else none }] }

end Pnet.Cscc
