import Pnet.CTypes

/-! Type representations. A class is a number, the place of its record in the
list of loaded classes; an unresolved reference is the class it resolves to. -/
namespace Pnet.Image

abbrev ClassId := Nat

namespace ElemType

@[match_pattern] abbrev void : Nat := 0x01
@[match_pattern] abbrev boolean : Nat := 0x02
@[match_pattern] abbrev char : Nat := 0x03
@[match_pattern] abbrev i1 : Nat := 0x04
@[match_pattern] abbrev u1 : Nat := 0x05
@[match_pattern] abbrev i2 : Nat := 0x06
@[match_pattern] abbrev u2 : Nat := 0x07
@[match_pattern] abbrev i4 : Nat := 0x08
@[match_pattern] abbrev u4 : Nat := 0x09
@[match_pattern] abbrev i8 : Nat := 0x0A
@[match_pattern] abbrev u8 : Nat := 0x0B
@[match_pattern] abbrev r4 : Nat := 0x0C
@[match_pattern] abbrev r8 : Nat := 0x0D
@[match_pattern] abbrev typedByRef : Nat := 0x16
@[match_pattern] abbrev i : Nat := 0x18
@[match_pattern] abbrev u : Nat := 0x19
@[match_pattern] abbrev r : Nat := 0x1A

end ElemType

def ilTypeComplexProperty : ILUInt16 := 8
def ilTypeComplexWith : ILUInt16 := 12
def ilTypeComplexMethod : ILUInt16 := 16
def ilMetaCallConvGeneric : ILUInt16 := 0x10

/-- `invalid` is the null type. Method, property and generic-instance types are
one form of node, which `kind` tells apart; the high byte of `kind` holds the
calling conventions. -/
inductive ILType where
  | invalid
  | primitive (elem : Nat)
  | class (info : ClassId)
  | valueType (info : ClassId)
  | byRef (refType : ILType)
  | ptr (refType : ILType)
  | pinned (refType : ILType)
  | array (elemType : ILType) (size lowBound : Int)
  | arrayContinue (elemType : ILType) (size lowBound : Int)
  | cmodReqd (info : ClassId) (type : ILType)
  | cmodOpt (info : ClassId) (type : ILType)
  | sentinel
  | var (num : Nat)
  | mvar (num : Nat)
  | signature (kind : ILUInt16) (numGen : Nat) (retType : ILType) (params : List ILType)
deriving Repr

def ilTypeVoid : ILType := .primitive ElemType.void

def ilTypeStripPrefixes : ILType → ILType
  | .cmodReqd _ type => ilTypeStripPrefixes type
  | .cmodOpt _ type => ilTypeStripPrefixes type
  | .pinned refType => ilTypeStripPrefixes refType
  | type => type

def ilTypeIsWith : ILType → Bool
  | .signature kind .. => kind &&& 0xFF == ilTypeComplexWith
  | _ => false

/-- The class of the main type of a generic instance. -/
def ilTypeGetWithMain : ILType → Option ClassId
  | .signature _ _ (.class info) _ | .signature _ _ (.valueType info) _ => some info
  | _ => none

def ilTypeIsReference : ILType → Bool
  | .invalid => true
  | .primitive elem => elem == 0xFF
  | .class _ | .array .. | .arrayContinue .. => true
  | _ => false

/-- The kinds whose parameters and return types are compared. -/
def ilTypeIsSignature (kind : ILUInt16) : Bool :=
  kind &&& 0xFF == ilTypeComplexProperty || kind &&& ilTypeComplexMethod != 0 ||
    kind &&& 0xFF == ilTypeComplexWith

/-- Only a method node with the generic calling convention has its number of
generic parameters compared. -/
def ilTypeNumGenMatters (kind : ILUInt16) : Bool :=
  kind &&& ilTypeComplexMethod != 0 && (kind >>> 8) &&& ilMetaCallConvGeneric != 0

mutual

/-- Prefixes are ignored at every level. -/
def ilTypeIdentical : ILType → ILType → Bool
  | .cmodReqd _ type, type2 => ilTypeIdentical type type2
  | .cmodOpt _ type, type2 => ilTypeIdentical type type2
  | .pinned refType, type2 => ilTypeIdentical refType type2
  | .invalid, type2 =>
    match ilTypeStripPrefixes type2 with
    | .invalid => true
    | _ => false
  | .primitive elem, type2 =>
    match ilTypeStripPrefixes type2 with
    | .primitive elem2 => elem == elem2
    | _ => false
  | .class info, type2 =>
    match ilTypeStripPrefixes type2 with
    | .class info2 => info == info2
    | _ => false
  | .valueType info, type2 =>
    match ilTypeStripPrefixes type2 with
    | .valueType info2 => info == info2
    | _ => false
  | .byRef refType, type2 =>
    match ilTypeStripPrefixes type2 with
    | .byRef refType2 => ilTypeIdentical refType refType2
    | _ => false
  | .ptr refType, type2 =>
    match ilTypeStripPrefixes type2 with
    | .ptr refType2 => ilTypeIdentical refType refType2
    | _ => false
  | .array elemType size lowBound, type2 =>
    match ilTypeStripPrefixes type2 with
    | .array elemType2 size2 lowBound2 =>
      ilTypeIdentical elemType elemType2 && size == size2 && lowBound == lowBound2
    | _ => false
  | .arrayContinue elemType size lowBound, type2 =>
    match ilTypeStripPrefixes type2 with
    | .arrayContinue elemType2 size2 lowBound2 =>
      ilTypeIdentical elemType elemType2 && size == size2 && lowBound == lowBound2
    | _ => false
  | .sentinel, type2 =>
    match ilTypeStripPrefixes type2 with
    | .sentinel => true
    | _ => false
  | .var num, type2 =>
    match ilTypeStripPrefixes type2 with
    | .var num2 => num == num2
    | _ => false
  | .mvar num, type2 =>
    match ilTypeStripPrefixes type2 with
    | .mvar num2 => num == num2
    | _ => false
  | .signature kind numGen retType params, type2 =>
    match ilTypeStripPrefixes type2 with
    | .signature kind2 numGen2 retType2 params2 =>
      kind == kind2 && ilTypeIsSignature kind &&
        (!ilTypeNumGenMatters kind || numGen == numGen2) &&
        ilTypeIdentical retType retType2 && ilTypesIdentical params params2
    | _ => false

def ilTypesIdentical : List ILType → List ILType → Bool
  | [], [] => true
  | type :: types, type2 :: types2 =>
    ilTypeIdentical type type2 && ilTypesIdentical types types2
  | _, _ => false

end

end Pnet.Image
