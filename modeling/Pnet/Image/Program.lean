import Pnet.Image.Types

/-! The classes of the loaded images and their members, and who may access
them. Attribute words are split into what is read from them. -/
namespace Pnet.Image

/-- A field or a method: the class that owns it and its place among the fields
or the methods there. -/
structure MemberId where
  owner : ClassId
  posn : Nat
deriving DecidableEq, Repr

inductive MemberAccess where
  | compilerControlled | privateAccess | famAndAssem | assem | family | famOrAssem | publicAccess
  | reserved
deriving DecidableEq, Repr

inductive TypeVisibility where
  | notPublic | publicType | nestedPublic | nestedPrivate | nestedFamily | nestedAssembly
  | nestedFamAndAssem | nestedFamOrAssem
deriving DecidableEq, Repr

/-- `fieldLayout` is the offset of the field's row in the field layout table. -/
structure ILField where
  signature : ILType
  isStatic : Bool := false
  isLiteral : Bool := false
  isThreadStatic : Bool := false
  hasFieldRVA : Bool := false
  fieldLayout : Option ILUInt32 := none

/-- `code` is the body's code, when the method has one that can be read. -/
structure ILMethod where
  name : String
  signature : ILType
  access : MemberAccess := .publicAccess
  isVirtual : Bool := true
  newSlot : Bool := false
  code : Option (List ILUInt8) := none

structure ILOverride where
  decl : MemberId
  body : MemberId

structure ILClassLayout where
  packingSize : ILUInt32
  classSize : ILUInt32

structure ILClass where
  parent : Option ClassId := none
  implements : List ClassId := []
  nestedParent : Option ClassId := none
  image : Nat := 0
  visibility : TypeVisibility := .publicType
  isInterface : Bool := false
  isExplicitLayout : Bool := false
  isExpanded : Bool := false
  synthetic : Option ILType := none
  classLayout : Option ILClassLayout := none
  fields : List ILField := []
  methods : List ILMethod := []
  overrides : List ILOverride := []

/-- The loaded classes, and which images are trusted. -/
structure Metadata where
  classes : List ILClass
  imageIsSecure : Nat → Bool

namespace Metadata

variable (md : Metadata)

def cls (info : ClassId) : ILClass := md.classes.getD info {}

def parent (info : ClassId) : Option ClassId := (md.cls info).parent

def field (f : MemberId) : ILField :=
  (md.cls f.owner).fields.getD f.posn { signature := .invalid }

def method (m : MemberId) : ILMethod :=
  (md.cls m.owner).methods.getD m.posn { name := "", signature := .invalid }

def fields (info : ClassId) : List MemberId :=
  (List.range (md.cls info).fields.length).map fun posn => ⟨info, posn⟩

def methods (info : ClassId) : List MemberId :=
  (List.range (md.cls info).methods.length).map fun posn => ⟨info, posn⟩

/-! ### Accessibility -/

/-- Go from class to class along `next` until `test` holds or the chain ends.
`none`: a chain longer than the number of classes never ends. -/
def walk (next : ClassId → Option ClassId) (test : ClassId → Option Bool) :
    Nat → Option ClassId → Option Bool
  | _, none => some false
  | 0, some _ => none
  | fuel + 1, some info =>
    match test info with
    | some true => some true
    | some false => walk next test fuel (next info)
    | none => none

def numSteps : Nat := md.classes.length + 1

def ilClassGetNestedParent (info : ClassId) : Option ClassId := (md.cls info).nestedParent

def ilClassInheritsFrom (info : ClassId) : Option ClassId → Option Bool
  | none => some false
  | some ancestor => walk md.parent (fun c => some (c == ancestor)) md.numSteps (some info)

def ilClassIsNested (parent : Option ClassId) (child : ClassId) : Option Bool :=
  walk md.ilClassGetNestedParent (fun c => some (some c == parent)) md.numSteps
    (md.ilClassGetNestedParent child)

def ilClassIsNestedInheritsFrom (nestedChild ancestor : ClassId) : Option Bool :=
  walk md.ilClassGetNestedParent
    (fun c => if c == ancestor then some true else md.ilClassInheritsFrom c (some ancestor))
    md.numSteps (md.ilClassGetNestedParent nestedChild)

def accessibleNestedPrivate (info scope : ClassId) : Option Bool :=
  if md.ilClassGetNestedParent info = some scope then some true
  else md.ilClassIsNested (md.ilClassGetNestedParent info) scope

def accessibleNestedFamily (info scope : ClassId) : Option Bool :=
  match md.accessibleNestedPrivate info scope with
  | some false =>
    walk md.ilClassGetNestedParent
      (fun c => md.ilClassInheritsFrom c (md.ilClassGetNestedParent info)) md.numSteps (some scope)
  | other => other

def sameImage (info scope : ClassId) : Bool := (md.cls info).image == (md.cls scope).image

/-- A public nested class is as accessible as the class around it. -/
def ilClassAccessible (scope : ClassId) : Nat → Option ClassId → Option Bool
  | _, none => some false
  | 0, some _ => none
  | fuel + 1, some info =>
    if info = scope then some true
    else match (md.cls info).visibility with
      | .notPublic | .nestedAssembly => some (md.sameImage info scope)
      | .publicType => some true
      | .nestedPublic => ilClassAccessible scope fuel (md.ilClassGetNestedParent info)
      | .nestedPrivate => md.accessibleNestedPrivate info scope
      | .nestedFamily => md.accessibleNestedFamily info scope
      | .nestedFamAndAssem =>
        (md.accessibleNestedFamily info scope).map (· && md.sameImage info scope)
      | .nestedFamOrAssem =>
        (md.accessibleNestedFamily info scope).map (· || md.sameImage info scope)

/-- A generic instance stands for its definition. -/
def genericDefOrSelf (info : ClassId) : Option ClassId :=
  if (md.cls info).isExpanded then
    match (md.cls info).synthetic with
    | some type => if ilTypeIsWith type then ilTypeGetWithMain type else none
    | none => none
  else some info

def inFamily (scope info : ClassId) : Option Bool :=
  match md.ilClassInheritsFrom scope (some info) with
  | some false => md.ilClassIsNestedInheritsFrom scope info
  | other => other

def ilMemberAccessible (m : MemberId) (scope : ClassId) : Option Bool :=
  match md.genericDefOrSelf m.owner, md.genericDefOrSelf scope with
  | some info, some scope =>
    match md.ilClassAccessible scope md.numSteps (some info) with
    | some true =>
      match (md.method m).access with
      | .compilerControlled | .privateAccess =>
        if info = scope then some true else md.ilClassIsNested (some info) scope
      | .famAndAssem =>
        (md.ilClassInheritsFrom scope (some info)).map (· && md.sameImage info scope)
      | .assem => some (md.sameImage info scope)
      | .family => md.inFamily scope info
      | .famOrAssem => (md.inFamily scope info).map (· || md.sameImage info scope)
      | .publicAccess => some true
      | .reserved => some false
    | other => other
  | _, _ => none

end Metadata

end Pnet.Image
