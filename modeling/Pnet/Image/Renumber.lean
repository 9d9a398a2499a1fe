import Pnet.Image.Compress

/-! How `image/writer.c` gives the members of an image that is built their final tokens, and how
`image/compact.c` then closes the gaps in the tables of references. An access outside a table is
`none`. -/
namespace Pnet.Image.Renumber

/-! ### Images -/

/-- The tables whose rows are renumbered, moved or followed. -/
inductive Table where
  | typeRef | typeDef | field | method | param | memberRef | event | property | methodImpl | implMap
deriving DecidableEq, Repr

/-- `IL_META_TOKEN_TYPE_REF` and so on -/
def Table.token : Table → ILToken
  | typeRef => 0x01000000
  | typeDef => 0x02000000
  | field => 0x04000000
  | method => 0x06000000
  | param => 0x08000000
  | memberRef => 0x0A000000
  | event => 0x14000000
  | property => 0x17000000
  | methodImpl => 0x19000000
  | implMap => 0x1C000000

def tables : List Table :=
  [.typeRef, .typeDef, .field, .method, .param, .memberRef, .event, .property, .methodImpl,
    .implMap]

/-- `IL_META_MEMBERKIND_METHOD` and so on -/
inductive MemberKind where
  | method | field | property | event | override | pInvoke | ref
deriving DecidableEq, Repr

/-- The items of an image are the pointers `I`. The rows of a table are in `tokenData`, whose length
is `tokenCount`. `members` is the list from `firstMember` on. The rows of the tables of maps and
nestings are the class and its first member, and the two classes. -/
structure ILImage (I : Type) where
  tokenData : Table → List (Option I)
  token : I → ILToken
  members : I → List I
  memberKind : I → MemberKind
  parameters : I → List I
  propertyMaps : List (I × Option I)
  eventMaps : List (I × Option I)
  nestedInfos : List (I × I)
  nestedClasses : List (I × I)

variable {I : Type} [DecidableEq I]

namespace ILImage

variable (image : ILImage I)

/-- `ILImageTokenInfo`, for a token of one of these tables. -/
def ilImageTokenInfo (token : ILToken) : Option I :=
  match tables.find? fun table => table.token = token &&& tokenMask with
  | none => none
  | some table =>
    let tokenId := (token &&& ~~~tokenMask).toNat
    if tokenId = 0 then none else ((image.tokenData table)[tokenId - 1]?).join

/-- The token of an item that is in a table. -/
def isKind (item : I) (table : Table) : Bool := image.token item &&& tokenMask = table.token

/-! ### Members -/

/-- `nextField`, `nextMethod`, `nextParam`, `nextProperty` and `nextEvent` -/
abbrev Next := Table → ILToken

/-- The item gets the next token of the table, and goes to its row. -/
def renumber (next : Next) (table : Table) (item : I) : Option (ILImage I × Next) :=
  let index := ((next table &&& ~~~tokenMask) - 1).toNat
  if index < (image.tokenData table).length then
    some ({ image with
      token := Function.update image.token item (next table)
      tokenData := Function.update image.tokenData table
        ((image.tokenData table).set index (some item)) },
      Function.update next table (next table + 1))
  else none

def renumberAll (image : ILImage I) (next : Next) (table : Table) :
    List I → Option (ILImage I × Next)
  | [] => some (image, next)
  | item :: items => do
    let (image, next) ← image.renumber next table item
    renumberAll image next table items

/-- References are ignored, as they are probably vararg signatures. -/
def assignMember (next : Next) (member : I) : Option (ILImage I × Next) :=
  if image.isKind member .memberRef then some (image, next)
  else
    match image.memberKind member with
    | .method => do
      let (image, next) ← image.renumber next .method member
      renumberAll image next .param (image.parameters member)
    | .field => image.renumber next .field member
    | .property => image.renumber next .property member
    | .event => image.renumber next .event member
    | _ => some (image, next)

def assignMembers (image : ILImage I) (next : Next) : List I → Option (ILImage I × Next)
  | [] => some (image, next)
  | member :: members => do
    let (image, next) ← image.assignMember next member
    assignMembers image next members

/-- Makes the entries of the maps if the class has properties or events. -/
def createMaps (info : I) (first next : Next) : ILImage I :=
  { image with
    propertyMaps := image.propertyMaps ++
      if first .property < next .property then [(info, image.ilImageTokenInfo (first .property))]
      else []
    eventMaps := image.eventMaps ++
      if first .event < next .event then [(info, image.ilImageTokenInfo (first .event))] else [] }

def assignMemberTokens (info : I) (next : Next) : Option (ILImage I × Next) := do
  let (image, next') ← image.assignMembers next (image.members info)
  some (image.createMaps info next next', next')

/-- The classes from the one of a token on. -/
def sortFrom : Nat → ILImage I → Next → ILToken → Option (ILImage I)
  | 0, _, _, _ => none
  | steps + 1, image, next, token =>
    match image.ilImageTokenInfo token with
    | none => some image
    | some info => do
      let (image, next) ← image.assignMemberTokens info next
      sortFrom steps image next (image.token info + 1)

/-- There are as many steps as classes, and one to find that there are no more. -/
def sortClasses : Option (ILImage I) :=
  sortFrom ((image.tokenData .typeDef).length + 1) image (fun table => table.token ||| 1)
    (Table.typeDef.token ||| 1)

/-! ### References -/

/-- The `left` rows from `token` on; `newToken` is the number of those that stay. -/
def compactFrom (table : Table) : Nat → Nat → Nat → ILImage I → ILImage I
  | 0, _, newToken, image =>
    { image with
      tokenData := Function.update image.tokenData table ((image.tokenData table).take newToken) }
  | left + 1, token, newToken, image =>
    match ((image.tokenData table)[token]?).join with
    | some item =>
      if image.isKind item table then
        compactFrom table left (token + 1) (newToken + 1) { image with
          tokenData := Function.update image.tokenData table
            ((image.tokenData table).set newToken (some item))
          token := Function.update image.token item
            (table.token ||| BitVec.ofNat 32 (newToken + 1)) }
      else compactFrom table left (token + 1) newToken image
    | none => compactFrom table left (token + 1) newToken image

def compactTable (table : Table) : ILImage I :=
  compactFrom table (image.tokenData table).length 0 0 image

/-- The nestings of two definitions go to the table of nested classes. -/
def convertNested : ILImage I :=
  { image with
    nestedClasses := image.nestedClasses ++ image.nestedInfos.filter fun nested =>
      image.isKind nested.1 .typeDef && image.isKind nested.2 .typeDef }

/-- `_ILCompactReferences`, of an image that is built -/
def compactReferences : ILImage I :=
  ((image.compactTable .typeRef).compactTable .memberRef).convertNested

end ILImage

/-! ### Building -/

namespace ILImage

variable (image : ILImage I)

/-- `_ILImageSetToken` -/
def setToken (item : I) (table : Table) : ILImage I :=
  { image with
    token := Function.update image.token item
      (table.token ||| BitVec.ofNat 32 ((image.tokenData table).length + 1))
    tokenData := Function.update image.tokenData table (image.tokenData table ++ [some item]) }

def empty (token : I → ILToken) (memberKind : I → MemberKind) : ILImage I where
  tokenData _ := []
  token
  members _ := []
  memberKind
  parameters _ := []
  propertyMaps := []
  eventMaps := []
  nestedInfos := []
  nestedClasses := []

end ILImage

/-- The table of the definitions of a kind. -/
def MemberKind.table : MemberKind → Table
  | method => .method
  | field => .field
  | property => .property
  | event => .event
  | override => .methodImpl
  | pInvoke => .implMap
  | ref => .memberRef

/-- What is done while an image is built. -/
inductive BuildOp (I : Type) where
  /-- `ILClassCreate` of a new class -/
  | classCreate (info : I)
  /-- `ILClassCreateRef` -/
  | classCreateRef (info : I)
  /-- `ILClassCreate` of a class that is a reference -/
  | classConvert (info : I)
  /-- `ILTypeSpecGetClassRef`, with the token of the type specification -/
  | classSpec (info : I) (token : ILToken)
  /-- `MemberCreate`, of a definition or a reference -/
  | memberCreate (info member : I) (kind : MemberKind) (reference : Bool)
  /-- `ILMemberRefCreate`, which no class has in its list -/
  | memberRefCreate (member : I)
  /-- `ILMethodNewToken`, for a reference -/
  | methodNewToken (info method : I)
  /-- `ILFieldNewToken`, for a reference, which goes to the end of its class -/
  | fieldNewToken (info field : I)
  /-- `ILParameterCreate`, for a definition, before the parameters with higher numbers -/
  | parameterCreate (method param : I) (posn : Nat)
  /-- A class that is nested in another -/
  | nestedCreate (child parent : I)
  /-- A row of references that the linker sets to null -/
  | dropRef (table : Table) (row : Nat)

namespace BuildOp

variable (image : ILImage I)

def run : BuildOp I → ILImage I
  | classCreate info | classConvert info => image.setToken info .typeDef
  | classCreateRef info => image.setToken info .typeRef
  | classSpec info token => { image with token := Function.update image.token info token }
  | memberCreate info member kind reference =>
    { image with
      members := Function.update image.members info (image.members info ++ [member])
      memberKind := Function.update image.memberKind member kind }.setToken member
        (if reference then .memberRef else kind.table)
  | memberRefCreate member => image.setToken member .memberRef
  | methodNewToken _ method => image.setToken method .method
  | fieldNewToken info field =>
    { image with
      members := Function.update image.members info
        ((image.members info).erase field ++ [field]) }.setToken field .field
  | parameterCreate method param posn =>
    { image with
      parameters := Function.update image.parameters method
        ((image.parameters method).take posn ++
          param :: (image.parameters method).drop posn) }.setToken param .param
  | nestedCreate child parent =>
    { image with nestedInfos := image.nestedInfos ++ [(child, parent)] }
  | dropRef table row =>
    { image with
      tokenData := Function.update image.tokenData table ((image.tokenData table).set row none) }

/-- Memory that is allocated is not an item yet. -/
structure Fresh (item : I) : Prop where
  row : ∀ table, some item ∉ image.tokenData table
  member : ∀ info, item ∉ image.members info
  param : ∀ method, item ∉ image.parameters method

/-- What the callers see to. -/
def Possible : BuildOp I → Prop
  | classCreate info | classCreateRef info => Fresh image info
  | classConvert info => image.isKind info .typeRef
  | classSpec info token =>
    image.isKind info .typeRef ∧ ∀ table, token &&& tokenMask ≠ Table.token table
  | memberCreate _ member _ _ | memberRefCreate member => Fresh image member
  | methodNewToken info method =>
    method ∈ image.members info ∧ image.memberKind method = .method ∧ image.isKind method .memberRef
  | fieldNewToken info field =>
    field ∈ image.members info ∧ image.memberKind field = .field ∧ image.isKind field .memberRef
  | parameterCreate method param _ =>
    Fresh image param ∧ param ≠ method ∧ some method ∈ image.tokenData .method
  | nestedCreate _ _ => True
  | dropRef table _ => table = .typeRef ∨ table = .memberRef

end BuildOp

/-- The images that are built. -/
inductive Built : ILImage I → Prop
  | start (token : I → ILToken) (memberKind : I → MemberKind) : Built (.empty token memberKind)
  | step {image : ILImage I} (h : Built image) (op : BuildOp I) (hpossible : op.Possible image) :
      Built (op.run image)

end Pnet.Image.Renumber
