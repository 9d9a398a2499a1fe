import Pnet.Cscc.CLayout

/-! The names of C types, and the classes that stand for arrays. -/
namespace Pnet.Cscc
open Pnet.Image

/-- `%lu`. -/
def decimal (n : Nat) : List ILUInt8 := (Nat.toDigits 10 n).map fun c => BitVec.ofNat 8 c.toNat

theorem decimal_injective : Function.Injective decimal := by
  intro m n h
  have hchars (n : Nat) :
      (decimal n).map (fun b => Char.ofNat b.toNat) = Nat.toDigits 10 n := by
    rw [decimal, List.map_map]
    refine (List.map_congr_left fun c hc => ?_).trans (List.map_id _)
    have hdigit := Nat.isDigit_of_mem_toDigits (by decide) (by decide) hc
    have hle : c.toNat ≤ '9'.toNat := by
      rw [Char.isDigit, Bool.and_eq_true, decide_eq_true_eq, decide_eq_true_eq] at hdigit
      exact hdigit.2
    have hlt : c.toNat < 2 ^ 8 := hle.trans_lt (by decide)
    rw [Function.comp_apply, BitVec.toNat_ofNat, Nat.mod_eq_of_lt hlt, Char.ofNat_toNat, id]
  rw [← Nat.ofDigitChars_ten_toDigits (n := m), ← hchars m, h, hchars n,
    Nat.ofDigitChars_ten_toDigits]

theorem length_decimal_le {n : Nat} (h : n < 2 ^ 32) : (decimal n).length ≤ 10 := by
  rw [decimal, List.length_map, Nat.length_toDigits_le_iff (by decide) (by decide)]
  omega

/-- `%ld`. -/
def signedDecimal (n : Int) : List ILUInt8 :=
  if n < 0 then chars "-" ++ decimal n.natAbs else decimal n.natAbs

def bracketed (name : List ILUInt8) : List ILUInt8 := chars "[" ++ name ++ chars "]"

/-! ### Types that C has no name for -/

def ilPrimitiveName : Nat → Option (List ILUInt8)
  | ElemType.void => some (chars "void")
  | ElemType.boolean => some (chars "bool")
  | ElemType.char => some (chars "char")
  | ElemType.i1 => some (chars "sbyte")
  | ElemType.u1 => some (chars "byte")
  | ElemType.i2 => some (chars "short")
  | ElemType.u2 => some (chars "ushort")
  | ElemType.i4 | ElemType.i => some (chars "int")
  | ElemType.u4 | ElemType.u => some (chars "uint")
  | ElemType.i8 => some (chars "long")
  | ElemType.u8 => some (chars "ulong")
  | ElemType.r4 => some (chars "float")
  | ElemType.r8 | ElemType.r => some (chars "double")
  | ElemType.typedByRef => some (chars "typedbyref")
  | _ => none

def CClass.qualifiedName (c : CClass) : List ILUInt8 :=
  let assemName := match c.assembly with
    | some name => if c.isRef then [] else bracketed name
    | none => []
  let nameSpace := match c.nameSpace with
    | some name => name ++ chars "."
    | none => []
  assemName ++ nameSpace ++ c.name

def rankSpec (size lowBound : Int) : List ILUInt8 :=
  if size = 0 ∧ lowBound ≠ 0 then signedDecimal lowBound ++ chars "..."
  else if lowBound = 0 ∧ size ≠ 0 then signedDecimal size
  else if size ≠ 0 ∧ lowBound ≠ 0 then
    signedDecimal lowBound ++ chars "..." ++ signedDecimal (lowBound + size - 1)
  else []

/-- The rank specifiers of an array, after its first bracket. -/
def ilArrayRanks : ILType → List ILUInt8
  | .array elemType size lowBound =>
    rankSpec size lowBound ++ match elemType with
      | .array .. | .arrayContinue .. => chars "][" ++ ilArrayRanks elemType
      | _ => chars "]"
  | .arrayContinue elemType size lowBound =>
    rankSpec size lowBound ++ chars "," ++ ilArrayRanks elemType
  | _ => []

/-- A method has ` * instance (` when its `this` is not explicit. -/
def ilMethodOpening (kind : ILUInt16) : List ILUInt8 :=
  if kind &&& 0x2000 ≠ 0 ∧ kind &&& 0x4000 = 0 then chars " * instance (" else chars " * ("

namespace CProgram

variable (p : CProgram)

mutual

def ilTypeToName : ILType → Option (List ILUInt8)
  | .cmodReqd _ type | .cmodOpt _ type | .pinned type => ilTypeToName type
  | .class info | .valueType info => some (p.cls info).qualifiedName
  | .primitive elem => ilPrimitiveName elem
  | .ptr refType => (ilTypeToName refType).map (· ++ chars " *")
  | .byRef refType => (ilTypeToName refType).map (· ++ chars " &")
  | .array elemType size lowBound =>
    (ilInnerName elemType).map
      (· ++ chars "[" ++ ilArrayRanks (.array elemType size lowBound))
  | .arrayContinue elemType size lowBound =>
    (ilInnerName elemType).map
      (· ++ chars "[" ++ ilArrayRanks (.arrayContinue elemType size lowBound))
  | .signature kind _ retType params => do
    let names ← ilParamNames params
    let args := List.intercalate (chars ", ") names
    if kind &&& 0xFF = ilTypeComplexMethod then
      let name ← match ilTypeStripPrefixes retType with
        | .invalid => some []
        | _ => ilTypeToName retType
      some (name ++ ilMethodOpening kind ++ args ++ chars ")")
    else if kind &&& 0xFF = ilTypeComplexWith then
      let name ← ilTypeToName retType
      some (name ++ chars "<" ++ args ++ chars ">")
    else none
  | .mvar num => some (chars "!!" ++ decimal num)
  | .var num => some (chars "!" ++ decimal num)
  | .invalid | .sentinel => none

/-- The name of what is within the ranks of an array. -/
def ilInnerName : ILType → Option (List ILUInt8)
  | .array elemType _ _ | .arrayContinue elemType _ _ => ilInnerName elemType
  | type => ilTypeToName type

def ilParamNames : List ILType → Option (List (List ILUInt8))
  | [] => some []
  | type :: params => do
    let name ← ilTypeToName type
    some (name :: (← ilParamNames params))

end

/-! ### The parts of an array -/

def ctypeMaxUInt32 : ILUInt32 := 0xFFFFFFFF

/-- The greatest number stands for a number that is not known before the program runs. -/
def cTypeGetNumElems (fuel : Nat) (type : ILType) : Option ILUInt32 :=
  match p.valueClass type with
  | some c =>
    if c.isArray then
      match c.findArrayElemField with
      | some field =>
        match c.classSize with
        | some size =>
          (p.cTypeGetLayoutInfo fuel (ilTypeStripPrefixes field.signature)).map fun layout =>
            if layout.size = 0 then 0 else size / layout.size
        | none => some ((c.userData.bind SizeNode.constant).getD ctypeMaxUInt32)
      | none => some 0
    else some 0
  | none => some 0

/-- The innermost element type, and the dimensions on the way to it. -/
def innerDimensions : Nat → ILType → Option (ILType × List ILUInt8)
  | 0, _ => none
  | fuel + 1, type =>
    if p.cTypeIsArray type then do
      let dimension ←
        if p.cTypeIsOpenArray type then some (chars "[]")
        else (p.cTypeGetNumElems fuel type).map fun size => bracketed (decimal size.toNat)
      let (inner, dimensions) ← innerDimensions fuel (p.cTypeGetElemType type)
      some (inner, dimension ++ dimensions)
    else some (type, [])

/-! ### Names -/

/-- The outermost dimension of an array. -/
def sizeName (size : ILUInt32) (sizeNode : Option SizeNode) (isOpen : Bool) : List ILUInt8 :=
  if isOpen then chars "[]"
  else match sizeNode with
    | some node => bracketed node.name
    | none => bracketed (decimal size.toNat)

/-- `toName` names the innermost element type. -/
def formatArrayName (toName : ILType → Option (List ILUInt8)) (fuel : Nat) (elemType : ILType)
    (size : ILUInt32) (sizeNode : Option SizeNode) (isOpen : Bool) : Option (List ILUInt8) := do
  let (inner, dimensions) ← p.innerDimensions fuel elemType
  let name ← toName inner
  some (name ++ sizeName size sizeNode isOpen ++ dimensions)

def cPrimitiveName : Nat → Option (List ILUInt8)
  | ElemType.void => some (chars "void")
  | ElemType.boolean => some (chars "_Bool")
  | ElemType.i1 => some (chars "char")
  | ElemType.u1 => some (chars "unsigned char")
  | ElemType.i2 => some (chars "short")
  | ElemType.u2 => some (chars "unsigned short")
  | ElemType.char => some (chars "__wchar__")
  | ElemType.i4 => some (chars "int")
  | ElemType.u4 => some (chars "unsigned int")
  | ElemType.i => some (chars "long")
  | ElemType.u => some (chars "unsigned long")
  | ElemType.i8 => some (chars "long long")
  | ElemType.u8 => some (chars "unsigned long long")
  | ElemType.r4 => some (chars "float")
  | ElemType.r8 => some (chars "double")
  | _ => none

def cTypeIsConst (type : ILType) : Bool :=
  p.checkForModifier (chars "IsConst") (chars "OpenSystem.C") type

def cTypeIsVolatile (type : ILType) : Bool :=
  p.checkForModifier (chars "IsVolatile") (chars "System.Runtime.CompilerServices") type

def cTypeIsPointer (type : ILType) : Bool :=
  match ilTypeStripPrefixes type with
  | .ptr _ => true
  | _ => false

/-- The qualifiers stand after a pointer or an array, and before any other type. -/
def qualifiedName (type : ILType) (name : List ILUInt8) : List ILUInt8 :=
  let stripped := ilTypeStripPrefixes type
  let after := cTypeIsPointer stripped || p.cTypeIsArray stripped
  match p.cTypeIsConst type, p.cTypeIsVolatile type with
  | false, false => name
  | true, false => if after then name ++ chars " const" else chars "const " ++ name
  | false, true => if after then name ++ chars " volatile" else chars "volatile " ++ name
  | true, true => if after then name ++ chars " const volatile" else chars "const volatile " ++ name

/-- The name of a value type; `toName` names the types it is made of. -/
def valueTypeName (toName : ILType → Option (List ILUInt8)) (fuel : Nat) (info : ClassId) :
    Option (List ILUInt8) :=
  let type := ILType.valueType info
  let c := p.cls info
  if p.cTypeIsStruct type then some (chars "struct " ++ c.name)
  else if p.cTypeIsUnion type then some (chars "union " ++ c.name)
  else if p.cTypeIsEnum type then some (chars "enum " ++ c.name)
  else if c.isArray then
    if c.isOpenArray then
      p.formatArrayName toName fuel (p.cTypeGetElemType type) 0 c.userData true
    else do
      let size ← p.cTypeGetNumElems fuel type
      p.formatArrayName toName fuel (p.cTypeGetElemType type) size c.userData false
  else if c.name = chars "ArgIterator" ∧ c.nameSpace = some (chars "System") then
    some (chars "__builtin_va_list")
  else p.ilTypeToName type

/-- `fuel` bounds the depth of the calls. -/
def cTypeToName : Nat → ILType → Option (List ILUInt8)
  | 0, _ => none
  | fuel + 1, type =>
    match type with
    | .primitive elem => cPrimitiveName elem <|> ilPrimitiveName elem
    | .valueType info => p.valueTypeName (cTypeToName fuel) fuel info
    | .ptr refType => (cTypeToName fuel refType).map (· ++ chars " *")
    | .cmodOpt _ _ | .cmodReqd _ _ =>
      (cTypeToName fuel (ilTypeStripPrefixes type)).map (p.qualifiedName type)
    | _ => p.ilTypeToName type

/-! ### Creation -/

/-- The class of a name in the global scope. -/
def ilClassLookup (name : List ILUInt8) : Option ClassId :=
  p.classes.findIdx? fun c => c.isGlobal && c.nameSpace.isNone && c.name == name

def addClass (c : CClass) : CProgram := { p with classes := p.classes ++ [c] }

/-- The node of a constant. -/
def uint32Node (size : ILUInt32) : SizeNode := ⟨decimal size.toNat, some size⟩

/-- The type, which is invalid where there is an error, and the program it is in; or nothing when
the compiler stops. -/
def createArray (fuel : Nat) (elemType : ILType) (size : ILUInt32) (sizeNode : Option SizeNode)
    (isOpen : Bool) : Option (ILType × CProgram) := do
  let inner ← p.formatArrayName (p.cTypeToName fuel) fuel elemType size sizeNode isOpen
  let name := chars "array " ++ inner
  match p.ilClassLookup name with
  | some info => some (.valueType info, p)
  | none =>
    let layout ← p.cTypeGetLayoutInfo fuel elemType
    match newArrayClass name elemType layout size sizeNode isOpen uint32Node with
    | some c => some (.valueType p.classes.length, p.addClass c)
    | none => some (.invalid, p)

def cTypeCreateArray (fuel : Nat) (elemType : ILType) (size : ILUInt32) :
    Option (ILType × CProgram) :=
  p.createArray fuel elemType size none false

def cTypeCreateArrayNode (fuel : Nat) (elemType : ILType) (size : SizeNode) :
    Option (ILType × CProgram) :=
  match size.constant with
  | some value => p.createArray fuel elemType value none false
  | none => p.createArray fuel elemType 0 (some size) false

def cTypeCreateOpenArray (fuel : Nat) (elemType : ILType) : Option (ILType × CProgram) :=
  p.createArray fuel elemType 0 none true

end CProgram

/-! ### What the creation of an array changes -/

section Frame

variable {p q : CProgram} {fuel : Nat} {info : ClassId}

theorem cls_addClass (hinfo : info < p.classes.length) (c : CClass) :
    (p.addClass c).cls info = p.cls info := by
  simp [CProgram.cls, CProgram.addClass, List.getElem?_append_left hinfo]

/-- The classes that there are stay as they are. -/
structure SameClasses (p q : CProgram) : Prop where
  length_le : p.classes.length ≤ q.classes.length
  cls_eq : ∀ info < p.classes.length, q.cls info = p.cls info

theorem SameClasses.refl (p : CProgram) : SameClasses p p := ⟨le_refl _, fun _ _ => rfl⟩

theorem sameClasses_addClass (p : CProgram) (c : CClass) : SameClasses p (p.addClass c) :=
  ⟨by simp [CProgram.addClass], fun _ h => cls_addClass h c⟩

theorem sameClasses_createArray {elemType type : ILType} {size : ILUInt32}
    {sizeNode : Option SizeNode} {isOpen : Bool}
    (h : p.createArray fuel elemType size sizeNode isOpen = some (type, q)) : SameClasses p q := by
  rw [CProgram.createArray] at h
  obtain ⟨inner, -, h⟩ := Option.bind_eq_some_iff.1 h
  dsimp only at h
  split at h
  · cases h
    exact .refl p
  · obtain ⟨layout, -, h⟩ := Option.bind_eq_some_iff.1 h
    split at h <;> cases h
    · exact sameClasses_addClass p _
    · exact .refl p

end Frame

end Pnet.Cscc
