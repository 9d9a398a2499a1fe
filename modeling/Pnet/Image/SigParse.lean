import Pnet.Image.Compress
import Pnet.Image.Instantiate
import Pnet.Lib.CutOff

/-! Signature parsing, `image/sig_parse.c`. A parser that returns `ILType_Invalid` is one that
fails: no caller looks at the reader after that. Allocation is taken to succeed. -/
namespace Pnet.Image.SigParse
open Pnet.Lib CutOff

/-- What parsing asks of the image, which may load tokens then. -/
structure ImageOps (σ : Type) where
  tokenInfo : σ → ILToken → Option ClassId × σ
  tokenInfo_null : ∀ image, (tokenInfo image 0).1 = none
  loadForwardTypeDef : σ → ILToken → Option σ
  classResolveSystem : σ → String → Option ClassId × σ
  classes : σ → ClassTable
  synthetic : σ → ClassId → ILType

abbrev State (σ : Type) := σ × ILMetaDataRead

abbrev Parse (σ : Type) := Parser (State σ)

def categoryCMod : ILUInt32 := 1
def categoryVoid : ILUInt32 := 2
def categoryByRef : ILUInt32 := 4
def categoryTypedByRef : ILUInt32 := 8
def categoryPinned : ILUInt32 := 16
def categoryAll : ILUInt32 := categoryCMod ||| categoryVoid ||| categoryByRef ||| categoryTypedByRef

inductive SigKind where
  | methodDef
  | methodRef
  | field
  | property
deriving DecidableEq

section

variable {σ : Type}

/-! ### Reading -/

def uncompressData : Parse σ ILUInt32 := fun s =>
  some ((ilMetaUncompressData s.2).1, s.1, (ilMetaUncompressData s.2).2)

def uncompressInt : Parse σ ILInt32 := fun s =>
  some ((ilMetaUncompressInt s.2).1, s.1, (ilMetaUncompressInt s.2).2)

def uncompressToken : Parse σ ILToken := fun s =>
  some ((ilMetaUncompressToken s.2).1, s.1, (ilMetaUncompressToken s.2).2)

/-- A byte that is read as it is; when there is none, `error` is set and nothing returned. -/
def rawByte : Parse σ ILUInt8 := fun s =>
  match s.2.error, s.2.data with
  | false, byte :: data => some (byte, s.1, { s.2 with data })
  | _, _ => none

/-- `reader->len >= 1 && reader->data[0] == byte` -/
def isAt (byte : ILUInt8) : Parse σ Bool := fun s => some (s.2.data.head? = some byte, s)

/-- `--(reader->len); ++(reader->data)` -/
def skipByte : Parse σ Unit := fun s => some ((), s.1, { s.2 with data := s.2.data.tail })

def bytesLeft : Parse σ Nat := fun s => some (s.2.data.length, s)

variable (ops : ImageOps σ)

/-- `ILImageTokenInfo`, where nothing found is the end. -/
def tokenInfo (token : ILToken) : Parse σ ClassId := fun s =>
  match ops.tokenInfo s.1 token with
  | (some info, image) => some (info, image, s.2)
  | (none, _) => none

/-- A class that is not loaded is looked for further along in the file. -/
def classInfo (token : ILToken) : Parse σ ClassId := fun s =>
  match ops.tokenInfo s.1 token with
  | (some info, image) => some (info, image, s.2)
  | (none, image) => (ops.loadForwardTypeDef image token).bind fun image =>
    tokenInfo ops token (image, s.2)

def classResolveSystem (name : String) : Parse σ ClassId := fun s =>
  match ops.classResolveSystem s.1 name with
  | (some info, image) => some (info, image, s.2)
  | (none, _) => none

/-! ### Building types -/

def ilTypeSetSize : ILType → Nat → Int → ILType
  | .array elemType _ lowBound, 0, value => .array elemType value lowBound
  | .arrayContinue elemType _ lowBound, 0, value => .arrayContinue elemType value lowBound
  | .arrayContinue elemType size lowBound, dimension + 1, value =>
    .arrayContinue (ilTypeSetSize elemType dimension value) size lowBound
  | type, _, _ => type

def ilTypeSetLowBound : ILType → Nat → Int → ILType
  | .array elemType size _, 0, value => .array elemType size value
  | .arrayContinue elemType size _, 0, value => .arrayContinue elemType size value
  | .arrayContinue elemType size lowBound, dimension + 1, value =>
    .arrayContinue (ilTypeSetLowBound elemType dimension value) size lowBound
  | type, _, _ => type

/-- `ILTypeAddModifiers`: the first modifier is the outer one. -/
def ilTypeAddModifiers (modifiers : List (Bool × ClassId)) (type : ILType) : ILType :=
  modifiers.foldr (fun modifier type =>
    if modifier.1 then .cmodReqd modifier.2 type else .cmodOpt modifier.2 type) type

/-- `ILTypeCreateMethod`, `ILTypeSetCallConv` and `ILType_SetNumGen`. -/
def createMethod (sigKind numGenericParams : ILUInt32) (retType : ILType) : Parse σ ILType :=
  fun s =>
    match ilTypeCreateMethod (ops.classes s.1) (ops.synthetic s.1) retType with
    | .signature kind _ retType params =>
      some (.signature (kind &&& 0xFF ||| sigKind.setWidth 16 <<< 8) numGenericParams.toNat retType
        params, s)
    | type => some (type, s)

def createProperty (propType : ILType) : Parse σ ILType := fun s =>
  some (.signature ilTypeComplexProperty 0 (toPrimitive (ops.classes s.1) (ops.synthetic s.1)
    propType) [], s)

def addParam (type paramType : ILType) : Parse σ ILType := fun s =>
  some (ilTypeAddParam (ops.classes s.1) (ops.synthetic s.1) type paramType, s)

/-- `ILTypeAddSentinel`; `IL_TYPE_COMPLEX_METHOD_SENTINEL` is 1. -/
def addSentinel (type : ILType) : Parse σ ILType :=
  match type with
  | .signature kind numGen retType params =>
    addParam ops (.signature (kind ||| 1) numGen retType params) .sentinel
  | type => pure type

def callConv : ILType → ILUInt16
  | .signature kind .. => (kind >>> 8) &&& 0x0F
  | _ => 0

/-! ### Array shapes -/

def parseSizes : Nat → Nat → ILType → Parse σ ILType
  | 0, _, array => pure array
  | left + 1, dim, array => do
    let value ← uncompressInt
    if value.toInt < 0 then failure
    else parseSizes left (dim + 1) (ilTypeSetSize array dim value.toInt)

def parseLowBounds : Nat → Nat → ILType → Parse σ ILType
  | 0, _, array => pure array
  | left + 1, dim, array => do
    let value ← uncompressInt
    parseLowBounds left (dim + 1) (ilTypeSetLowBound array dim value.toInt)

def parseBounds (rank : ILUInt32) (array : ILType) : Parse σ ILType := do
  let numLowBounds ← uncompressData
  if numLowBounds > rank then failure
  else parseLowBounds numLowBounds.toNat 0 array

def parseArrayShape (elemType : ILType) : Parse σ ILType := do
  let rank ← uncompressData
  if rank = 0 then failure
  else do
    let numSizes ← uncompressData
    if numSizes > rank then failure
    else do
      let array ← parseSizes numSizes.toNat 0 (ilTypeCreateArray rank.toNat elemType)
      parseBounds rank array

/-! ### Parameters -/

def parseParams (elemType : Parse σ ILType) : Nat → ILType → Parse σ ILType
  | 0, type => pure type
  | left + 1, type => do
    let paramType ← elemType
    let type ← addParam ops type paramType
    parseParams elemType left type

/-- `IL_META_ELEMTYPE_SENTINEL` -/
def sentinelByte : ILUInt8 := 0x41

/-- The rest of the loop when a sentinel has been seen: another one is an error. -/
def parseAfterSentinel (elemType : Parse σ ILType) : Nat → ILType → Parse σ ILType
  | 0, type => pure type
  | left + 1, type => do
    let sentinel ← isAt sentinelByte
    if sentinel then failure
    else do
      let paramType ← elemType
      let type ← addParam ops type paramType
      parseAfterSentinel elemType left type

/-- The parameters of a method, and whether there was a sentinel. A sentinel is not counted. -/
def parseMethodParams (elemType : Parse σ ILType) (numParams : ILUInt32) :
    Nat → ILType → Parse σ (Bool × ILType)
  | 0, type => pure (false, type)
  | left + 1, type => do
    let sentinel ← isAt sentinelByte
    if sentinel then
      if numParams > 0xFFFE then failure
      else do
        skipByte
        let type ← addSentinel ops type
        let type ← parseAfterSentinel ops elemType (left + 1) type
        pure (true, type)
    else do
      let paramType ← elemType
      let type ← addParam ops type paramType
      parseMethodParams elemType numParams left type

/-! ### Element types and signatures -/

/-- The two parsers, with one level of recursion less. -/
structure Below (σ : Type) where
  elemType : ILUInt32 → Parse σ ILType
  signature : Parse σ (SigKind × ILType)

/-- The cases of the switch in `ParseElemType`. -/
inductive ElemCase where
  | void
  | simple
  | system (name : String)
  | ptr
  | byRef
  | valueType
  | classType
  | array
  | szArray
  | typedByRef
  | fnPtr
  | pinned
  | with
  | mvar
  | var
  | other

def elemCase (value : ILUInt32) : ElemCase :=
  match value.toNat with
  | ElemType.void => .void
  | ElemType.boolean | ElemType.char | ElemType.i1 | ElemType.u1 | ElemType.i2 | ElemType.u2
  | ElemType.i4 | ElemType.u4 | ElemType.i8 | ElemType.u8 | ElemType.r4 | ElemType.r8
  | ElemType.i | ElemType.u | ElemType.r => .simple
  | 0x0E => .system "String"
  | 0x0F => .ptr
  | 0x10 => .byRef
  | 0x11 => .valueType
  | 0x12 => .classType
  | 0x13 => .var
  | 0x14 => .array
  | 0x15 => .with
  | ElemType.typedByRef => .typedByRef
  | 0x1B => .fnPtr
  | 0x1C => .system "Object"
  | 0x1D => .szArray
  | 0x1E => .mvar
  | 0x45 => .pinned
  | _ => .other

def cmodReqd : ILUInt32 := 0x1F
def cmodOpt : ILUInt32 := 0x20

/-- The loop over compiler modifiers, from the type value that was read last. Each round reads a
byte at least, so it takes no more rounds than there are bytes left. -/
def parseModifiers (categories : ILUInt32) :
    Nat → ILUInt32 → Parse σ (List (Bool × ClassId) × ILUInt32)
  | rounds, value =>
    if value = cmodReqd ∨ value = cmodOpt then
      if categories &&& categoryCMod = 0 then failure
      else
        match rounds with
        | 0 => failure
        | rounds + 1 => do
          let token ← uncompressToken
          let info ← tokenInfo ops token
          let next ← uncompressData
          let (modifiers, value') ← parseModifiers categories rounds next
          pure ((decide (value = cmodReqd), info) :: modifiers, value')
    else pure ([], value)

/-- `if(depth > 0)` -/
def deeper (below : Option (Below σ)) (parse : Below σ → Parse σ ILType) : Parse σ ILType :=
  below.elim failure parse

def parseWith (elemType : Parse σ ILType) : Parse σ ILType := do
  let mainType ← elemType
  let count ← rawByte
  parseParams ops elemType count.toNat (.signature ilTypeComplexWith 0 mainType [])

def parseFnPtr (signature : Parse σ (SigKind × ILType)) : Parse σ ILType := do
  let (kind, type) ← signature
  if kind = .methodDef ∨ kind = .methodRef then pure type
  else failure

def parseClassToken (info : ILToken → Parse σ ClassId) (type : ClassId → ILType) :
    Parse σ ILType := do
  let token ← uncompressToken
  if token = 0 then failure
  else do
    let info ← info token
    pure (type info)

/-- The switch. -/
def parseElemCase (below : Option (Below σ)) (categories value : ILUInt32) : Parse σ ILType :=
  match elemCase value with
  | .void => if categories &&& categoryVoid ≠ 0 then pure ilTypeVoid else failure
  | .simple => pure (.primitive value.toNat)
  | .system name => do
    let info ← classResolveSystem ops name
    pure (.class info)
  | .ptr => deeper below fun below => do
    let type ← below.elemType (categoryCMod ||| categoryVoid)
    pure (.ptr type)
  | .byRef =>
    if categories &&& categoryByRef ≠ 0 then deeper below fun below => do
      let type ← below.elemType (categories &&& ~~~categoryByRef)
      pure (.byRef type)
    else failure
  | .valueType => parseClassToken (tokenInfo ops) .valueType
  | .classType => parseClassToken (classInfo ops) .class
  | .array => deeper below fun below => do
    let type ← below.elemType 0
    parseArrayShape type
  | .szArray => deeper below fun below => do
    let type ← below.elemType categoryCMod
    pure (ilTypeCreateArray 1 type)
  | .typedByRef =>
    if categories &&& categoryTypedByRef ≠ 0 then pure (.primitive ElemType.typedByRef) else failure
  | .fnPtr => deeper below fun below => parseFnPtr below.signature
  | .pinned =>
    if categories &&& categoryPinned ≠ 0 then deeper below fun below => do
      let type ← below.elemType categories
      pure (.pinned type)
    else failure
  | .with => deeper below fun below => parseWith ops (below.elemType categories)
  | .mvar => do
    let num ← rawByte
    pure (.mvar num.toNat)
  | .var => do
    let num ← rawByte
    pure (.var num.toNat)
  | .other => failure

def parseElemType (below : Option (Below σ)) (categories : ILUInt32) : Parse σ ILType := do
  let first ← uncompressData
  let rounds ← bytesLeft
  let (modifiers, value) ← parseModifiers ops categories rounds first
  let type ← parseElemCase ops below categories value
  pure (ilTypeAddModifiers modifiers type)

/-- The cases of the switch in `ParseSignature`. -/
inductive SigCase where
  | method
  | field
  | property
  | other
deriving DecidableEq

def sigCase (sigKind : ILUInt32) : SigCase :=
  match (sigKind &&& 0x0F).toNat with
  | 0x00 | 0x01 | 0x02 | 0x03 | 0x04 | 0x05 | 0x09 | 0x0A => .method
  | 0x06 => .field
  | 0x08 => .property
  | _ => .other

/-- `IL_META_CALLCONV_INSTANTIATION` -/
def isInstantiation (sigKind : ILUInt32) : Bool := sigKind &&& 0x0F = 0x0A

def parseNumGeneric (sigKind : ILUInt32) : Parse σ ILUInt32 :=
  if sigKind &&& 0x10 ≠ 0 then do
    let numGenericParams ← uncompressData
    if numGenericParams > 0xFF then failure
    else pure numGenericParams
  else pure 0

def paramCategories : ILUInt32 := categoryCMod ||| categoryByRef ||| categoryTypedByRef

def parseRetType (below : Below σ) (sigKind : ILUInt32) : Parse σ ILType :=
  if isInstantiation sigKind then pure .invalid
  else below.elemType (categoryCMod ||| categoryVoid ||| categoryTypedByRef ||| categoryByRef)

/-- A sentinel is for `IL_META_CALLCONV_VARARG` and `IL_META_CALLCONV_C`. -/
def sentinelAllowed (type : ILType) : Bool := callConv type = 0x05 ∨ callConv type = 0x01

def finishMethod (sawSentinel : Bool) (type : ILType) : Parse σ (SigKind × ILType) :=
  if sawSentinel ∧ ¬ sentinelAllowed type then failure
  else pure (if sawSentinel then .methodRef else .methodDef, type)

/-- A method, when its generic parameters and its parameters have been counted. -/
def parseMethod (below : Option (Below σ)) (sigKind numGenericParams numParams : ILUInt32) :
    Parse σ (SigKind × ILType) :=
  below.elim failure fun below => do
    let retType ← parseRetType below sigKind
    let type ← createMethod ops sigKind numGenericParams retType
    let (sawSentinel, type) ← parseMethodParams ops (below.elemType paramCategories) numParams
      numParams.toNat type
    finishMethod sawSentinel type

def parseProperty (below : Option (Below σ)) (numParams : ILUInt32) : Parse σ (SigKind × ILType) :=
  below.elim failure fun below => do
    let propType ← below.elemType 0
    let type ← createProperty ops propType
    let type ← parseParams ops (below.elemType paramCategories) numParams.toNat type
    pure (.property, type)

def parseSigCase (below : Option (Below σ)) (sigKind : ILUInt32) : Parse σ (SigKind × ILType) :=
  match sigCase sigKind with
  | .method => do
    let numGenericParams ← parseNumGeneric sigKind
    let numParams ← uncompressData
    if numParams > 0xFFFF then failure
    else parseMethod ops below sigKind numGenericParams numParams
  | .field => below.elim failure fun below => do
    let type ← below.elemType categoryAll
    pure (.field, type)
  | .property => do
    let numParams ← uncompressData
    if numParams > 0xFFFD then failure
    else parseProperty ops below numParams
  | .other => failure

def parseSignature (below : Option (Below σ)) : Parse σ (SigKind × ILType) := do
  let sigKind ← uncompressData
  parseSigCase ops below sigKind

/-- The parsers at a depth. -/
def parsers : Nat → Below σ
  | 0 => ⟨parseElemType ops none, parseSignature ops none⟩
  | depth + 1 =>
    ⟨parseElemType ops (some (parsers depth)), parseSignature ops (some (parsers depth))⟩

def ilTypeRecursionDepth : Nat := 20

/-! ### Entry points -/

/-- `if(!(reader.error) && type)` -/
def unlessError {α : Type} (result : Option (α × State σ)) : Option α :=
  result.bind fun (a, s) => if s.2.error then none else some a

variable (image : σ) (blob : List ILUInt8)

def parseSigBlob : Option (SigKind × ILType) :=
  unlessError ((parsers ops ilTypeRecursionDepth).signature (image, ⟨blob, false⟩))

def ilTypeFromMethodDefSig : Option ILType :=
  (parseSigBlob ops image blob).bind fun (kind, type) =>
    if kind = .methodDef then some type else none

def ilTypeFromMethodRefSig : Option ILType :=
  (parseSigBlob ops image blob).bind fun (kind, type) =>
    if (kind = .methodDef ∨ kind = .methodRef) ∧ (callConv type = 0 ∨ callConv type = 0x05) then
      some type
    else none

def ilTypeFromStandAloneMethodSig : Option ILType :=
  (parseSigBlob ops image blob).bind fun (kind, type) =>
    if kind = .methodDef ∨ kind = .methodRef then some type else none

def ilTypeFromPropertySig : Option ILType :=
  (parseSigBlob ops image blob).bind fun (kind, type) =>
    if kind = .property then some type else none

def ilTypeFromTypeSpec : Option ILType :=
  unlessError ((parsers ops ilTypeRecursionDepth).elemType (categoryCMod ||| categoryVoid)
    (image, ⟨blob, false⟩))

def parseField : Parse σ ILType := do
  let kind ← uncompressData
  if kind ≠ 0x06 then failure
  else (parsers ops ilTypeRecursionDepth).elemType categoryAll

def ilTypeFromFieldSig : Option ILType := ((parseField ops) (image, ⟨blob, false⟩)).map (·.1)

/-- `IL_META_ELEMTYPE_PINNED` -/
def pinnedByte : ILUInt8 := 0x45

/-- Skips the pinned directives, and says whether there was one. -/
def skipPinned : Parse σ Bool := fun s =>
  some (s.2.data.head? = some pinnedByte, s.1,
    { s.2 with data := s.2.data.dropWhile (· = pinnedByte) })

def localCategories : ILUInt32 := categoryAll ||| categoryPinned

/-- `ILTypeAddLocal`, with the flag in front of the type when it is pinned. -/
def addLocal (isPinned : Bool) (locals : List ILType) (type : ILType) : Parse σ (List ILType) :=
  fun s => some (locals ++ [toPrimitive (ops.classes s.1) (ops.synthetic s.1)
    (if isPinned then .pinned type else type)], s)

def parseLocals : Nat → List ILType → Parse σ (List ILType)
  | 0, locals => pure locals
  | left + 1, locals => do
    let isPinned ← skipPinned
    let type ← (parsers ops ilTypeRecursionDepth).elemType localCategories
    let locals ← addLocal ops isPinned locals type
    parseLocals left locals

def readerError : Parse σ Bool := fun s => some (s.2.error, s)

def parseLocalVars : Parse σ (List ILType) := do
  let kind ← uncompressData
  let error ← readerError
  if kind ≠ 0x07 ∨ error then failure
  else do
    let count ← uncompressData
    let error ← readerError
    if error ∨ count > 0xFFFF then failure
    else parseLocals ops count.toNat []

/-- `blob` is what `ILImageGetBlob` finds at the offset, if there is a blob. -/
def ilTypeFromLocalVarSig (blob : Option (List ILUInt8)) : Option (List ILType) :=
  blob.bind fun blob => ((parseLocalVars ops) (image, ⟨blob, false⟩)).map (·.1)

end

end Pnet.Image.SigParse
