import Pnet.Image.Compress

/-! The metadata index of `image/meta_index.c`: what the rows of each table hold, how large they
are, how one is read and written, and how the index as a whole is taken apart. A byte is read at a
position of the blob it belongs to; reading where the blob has none, or dividing by zero, stops
the C program in ways of its own. -/
namespace Pnet.Image

/-! ### Row descriptions -/

def tokenModule : ILToken := 0x00000000
def tokenFieldDef : ILToken := 0x04000000
def tokenMethodDef : ILToken := 0x06000000
def tokenParamDef : ILToken := 0x08000000
def tokenInterfaceImpl : ILToken := 0x09000000
def tokenMemberRef : ILToken := 0x0A000000
def tokenDeclSecurity : ILToken := 0x0E000000
def tokenStandAloneSig : ILToken := 0x11000000
def tokenEvent : ILToken := 0x14000000
def tokenProperty : ILToken := 0x17000000
def tokenModuleRef : ILToken := 0x1A000000
def tokenAssembly : ILToken := 0x20000000
def tokenAssemblyRef : ILToken := 0x23000000
def tokenFile : ILToken := 0x26000000
def tokenExportedType : ILToken := 0x27000000
def tokenManifestResource : ILToken := 0x28000000
def tokenNestedClass : ILToken := 0x29000000
def tokenGenericPar : ILToken := 0x2A000000
def tokenGenericConstraint : ILToken := 0x2C000000
def tokenString : ILToken := 0x70000000

/-- The table that a token is about. -/
def tokenTable (token : ILToken) : Nat := (token >>> 24).toNat

/-- One column, or the three values of a blob. `list` is the first row of a list in the table of
its token, `tkRef` a row there, and `mixed` a row of one of several tables, which the low bits
choose: 1 stands for no table, 2 for a name given as a string. -/
inductive Field where
  | strRef
  | blobRef
  | guidRef
  | uint16
  | uint32
  | list (token : ILToken)
  | optGen
  | tkRef (token : ILToken)
  | mixed (bits : Nat) (tokens : List ILToken)
deriving DecidableEq, Repr

def fieldField : Field := .list tokenFieldDef
def methodField : Field := .list tokenMethodDef
def paramField : Field := .list tokenParamDef

def scopeRefDesc : Field :=
  .mixed 2 [tokenModule, tokenModuleRef, tokenAssemblyRef, tokenTypeRef]

def typeDefRefOrSpecDesc : Field := .mixed 2 [tokenTypeDef, tokenTypeRef, tokenTypeSpec, 1]

def memberRefParentDesc : Field :=
  .mixed 3 [tokenTypeDef, tokenTypeRef, tokenModuleRef, tokenMethodDef, tokenTypeSpec, 1, 1, 1]

def constantRefDesc : Field := .mixed 2 [tokenFieldDef, tokenParamDef, tokenProperty, 1]

def customOwnerDesc : Field :=
  .mixed 5 [tokenMethodDef, tokenFieldDef, tokenTypeRef, tokenTypeDef, tokenParamDef,
    tokenInterfaceImpl, tokenMemberRef, tokenModule, tokenDeclSecurity, tokenProperty, tokenEvent,
    tokenStandAloneSig, tokenModuleRef, tokenTypeSpec, tokenAssembly, tokenAssemblyRef, tokenFile,
    tokenExportedType, tokenManifestResource, tokenGenericPar, 1, 1, 1, 1, 1, 1, 1, 1, 1, 1, 1, 1]

def customNameDesc : Field :=
  .mixed 3 [tokenTypeRef, tokenTypeDef, tokenMethodDef, tokenMemberRef, 2, 1, 1, 1]

def marshalDefDesc : Field := .mixed 1 [tokenFieldDef, tokenParamDef]

def hasDeclSecurityDesc : Field := .mixed 2 [tokenTypeDef, tokenMethodDef, tokenAssembly, 1]

def eventOrPropertyDesc : Field := .mixed 1 [tokenEvent, tokenProperty]

def methodDefOrRefDesc : Field := .mixed 1 [tokenMethodDef, tokenMemberRef]

def fieldOrMethodDesc : Field := .mixed 1 [tokenFieldDef, tokenMethodDef]

def exportedTypeDesc : Field := .mixed 2 [tokenFile, tokenAssemblyRef, tokenExportedType, 1]

def genericParOwnerDesc : Field := .mixed 1 [tokenTypeDef, tokenMethodDef]

/-- `FieldDescriptions`, by the number of the table. -/
def fieldDescriptions : Nat → Option (List Field)
  | 0x00 => some [.uint16, .strRef, .guidRef, .guidRef, .guidRef]
  | 0x01 => some [scopeRefDesc, .strRef, .strRef]
  | 0x02 => some [.uint32, .strRef, .strRef, typeDefRefOrSpecDesc, fieldField, methodField]
  | 0x04 => some [.uint16, .strRef, .blobRef]
  | 0x06 => some [.uint32, .uint16, .uint16, .strRef, .blobRef, paramField]
  | 0x08 => some [.uint16, .uint16, .strRef]
  | 0x09 => some [.tkRef tokenTypeDef, typeDefRefOrSpecDesc]
  | 0x0A => some [memberRefParentDesc, .strRef, .blobRef]
  | 0x0B => some [.uint16, constantRefDesc, .blobRef]
  | 0x0C => some [customOwnerDesc, customNameDesc, .blobRef]
  | 0x0D => some [marshalDefDesc, .blobRef]
  | 0x0E => some [.uint16, hasDeclSecurityDesc, .blobRef]
  | 0x0F => some [.uint16, .uint32, .tkRef tokenTypeDef]
  | 0x10 => some [.uint32, .tkRef tokenFieldDef]
  | 0x11 => some [.blobRef]
  | 0x12 => some [.tkRef tokenTypeDef, .tkRef tokenEvent]
  | 0x14 => some [.uint16, .strRef, typeDefRefOrSpecDesc]
  | 0x15 => some [.tkRef tokenTypeDef, .tkRef tokenProperty]
  | 0x17 => some [.uint16, .strRef, .blobRef]
  | 0x18 => some [.uint16, .tkRef tokenMethodDef, eventOrPropertyDesc]
  | 0x19 => some [.tkRef tokenTypeDef, methodDefOrRefDesc, methodDefOrRefDesc]
  | 0x1A => some [.strRef]
  | 0x1B => some [.blobRef]
  | 0x1C => some [.uint16, fieldOrMethodDesc, .strRef, .tkRef tokenModuleRef]
  | 0x1D => some [.uint32, .tkRef tokenFieldDef]
  | 0x20 => some [.uint32, .uint16, .uint16, .uint16, .uint16, .uint32, .blobRef, .strRef, .strRef]
  | 0x21 => some [.uint32]
  | 0x22 => some [.uint32, .uint32, .uint32]
  | 0x23 => some [.uint16, .uint16, .uint16, .uint16, .uint32, .blobRef, .strRef, .strRef, .blobRef]
  | 0x24 => some [.uint32, .tkRef tokenAssemblyRef]
  | 0x25 => some [.uint32, .uint32, .uint32, .tkRef tokenAssemblyRef]
  | 0x26 => some [.uint32, .strRef, .blobRef]
  | 0x27 => some [.uint32, .uint32, .strRef, .strRef, exportedTypeDesc]
  | 0x28 => some [.uint32, .uint32, .strRef, exportedTypeDesc]
  | 0x29 => some [.tkRef tokenTypeDef, .tkRef tokenTypeDef]
  | 0x2A => some [.uint16, .uint16, genericParOwnerDesc, .strRef]
  | 0x2B => some [methodDefOrRefDesc, .blobRef]
  | 0x2C => some [.tkRef tokenGenericPar, typeDefRefOrSpecDesc]
  | _ => none

/-! ### Images -/

/-- What the functions here use of an image. `guidSize` is the size of its "#GUID" entry. -/
structure ILImage where
  stringPoolSize : ILUInt32
  blobPool : List ILUInt8
  guidSize : Option ILUInt32
  strRefBig : Bool := false
  blobRefBig : Bool := false
  guidRefBig : Bool := false
  tokenCount : Nat → ILUInt32 := fun _ => 0
  tokenSize : Nat → ILUInt8 := fun _ => 0
  tokenStart : Nat → Nat := fun _ => 0
  sorted : ILUInt64 := 0

structure RefSizes where
  strRefSize : Nat
  blobRefSize : Nat
  guidRefSize : Nat
deriving DecidableEq, Repr

def ILImage.refSizes (image : ILImage) : RefSizes where
  strRefSize := if image.strRefBig then 4 else 2
  blobRefSize := if image.blobRefBig then 4 else 2
  guidRefSize := if image.guidRefBig then 4 else 2

variable (image : ILImage) (sizes : RefSizes)

/-- A list column is as wide as the row behind the last one needs. -/
def listBig (token : ILToken) : Bool := decide (0xFFFE < image.tokenCount (tokenTable token))

def tkRefBig (token : ILToken) : Bool := decide (0xFFFF < image.tokenCount (tokenTable token))

def mixedBig (bits : Nat) (tokens : List ILToken) : Bool :=
  tokens.any fun token => decide (token ≠ 1 ∧ token ≠ 2 ∧
    (0xFFFF : ILUInt32) >>> bits < image.tokenCount (tokenTable token))

/-! ### Sizes -/

def fieldSize : Field → Nat
  | .strRef => sizes.strRefSize
  | .blobRef => sizes.blobRefSize
  | .guidRef => sizes.guidRefSize
  | .uint16 => 2
  | .uint32 => 4
  | .list token => if listBig image token then 4 else 2
  | .optGen => 0
  | .tkRef token => if tkRefBig image token then 4 else 2
  | .mixed bits tokens => if mixedBig image bits tokens then 4 else 2

def tokenSize : List Field → Nat
  | [] => 0
  | .optGen :: rest =>
    if 0 < image.tokenCount (tokenTable tokenGenericConstraint) then
      match rest with
      | [] => 0
      | _ :: rest => tokenSize rest
    else tokenSize rest
  | field :: rest => fieldSize image sizes field + tokenSize rest

/-! ### Reading -/

/-- The two results of a load that are not zero, and the two ways to go wrong. -/
inductive MetaStop where
  | badMeta
  | undocMeta
  | outside
  | byZero
deriving DecidableEq, Repr

def ilReadUInt16 (bytes : List ILUInt8) (posn : Nat) : Except MetaStop ILUInt32 :=
  match bytes.drop posn with
  | b0 :: b1 :: _ => .ok ((b1.setWidth 32 <<< 8) ||| b0.setWidth 32)
  | _ => .error .outside

def ilReadUInt32 (bytes : List ILUInt8) (posn : Nat) : Except MetaStop ILUInt32 :=
  match bytes.drop posn with
  | b0 :: b1 :: b2 :: b3 :: _ =>
    .ok ((b3.setWidth 32 <<< 24) ||| (b2.setWidth 32 <<< 16) ||| (b1.setWidth 32 <<< 8) |||
      b0.setWidth 32)
  | _ => .error .outside

def ilReadUInt64 (bytes : List ILUInt8) (posn : Nat) : Except MetaStop ILUInt64 := do
  let low ← ilReadUInt32 bytes posn
  let high ← ilReadUInt32 bytes (posn + 4)
  return (high.setWidth 64 <<< 32) ||| low.setWidth 64

/-- A value of one of the two widths. -/
def readWidth (big : Bool) (bytes : List ILUInt8) (posn : Nat) : Except MetaStop ILUInt32 :=
  if big then ilReadUInt32 bytes posn else ilReadUInt16 bytes posn

/-- The values of one field, and the position after it. -/
def parseField (bytes : List ILUInt8) (posn : Nat) : Field → Except MetaStop (List ILUInt32 × Nat)
  | .strRef => do
    let temp ← readWidth (sizes.strRefSize ≠ 2) bytes posn
    if image.stringPoolSize ≤ temp then throw .badMeta
    else return ([temp], posn + sizes.strRefSize)
  | .blobRef => do
    let temp ← readWidth (sizes.blobRefSize ≠ 2) bytes posn
    if temp ≠ 0 ∧ image.blobPool.length ≤ temp.toNat then throw .badMeta
    else if temp ≠ 0 then
      let (len, reader) := ilMetaUncompressData ⟨image.blobPool.drop temp.toNat, false⟩
      if reader.data.length < len.toNat ∨ reader.error = true then throw .badMeta
      else return ([temp, BitVec.ofNat 32 (image.blobPool.length - reader.data.length), len],
        posn + sizes.blobRefSize)
    else return ([temp, temp, 0], posn + sizes.blobRefSize)
  | .guidRef => do
    let temp ← readWidth (sizes.guidRefSize ≠ 2) bytes posn
    let posn := posn + if sizes.guidRefSize ≠ 2 then 4 else 2
    if temp ≠ 0 then
      match image.guidSize with
      | none => throw .badMeta
      | some size =>
        if 0x10000000 ≤ temp ∨ size < 16 ∨ size < temp * 16 then throw .badMeta
        else return ([(temp - 1) * 16], posn)
    else return ([0xFFFFFFFF], posn)
  | .uint16 => do return ([← ilReadUInt16 bytes posn], posn + 2)
  | .uint32 => do return ([← ilReadUInt32 bytes posn], posn + 4)
  | .list token => do
    let limit := image.tokenCount (tokenTable token)
    let temp ← readWidth (listBig image token) bytes posn
    let posn := posn + if listBig image token then 4 else 2
    if temp = limit + 1 then return ([0], posn)
    else if 0 < temp ∧ temp ≤ limit then return ([token ||| temp], posn)
    else throw .badMeta
  | .optGen => return ([], posn)
  | .tkRef token => do
    let limit := image.tokenCount (tokenTable token)
    let temp ← readWidth (tkRefBig image token) bytes posn
    let posn := posn + if tkRefBig image token then 4 else 2
    if 0 < temp ∧ temp ≤ limit then return ([token ||| temp], posn) else throw .badMeta
  | .mixed bits tokens => do
    let temp ← readWidth (mixedBig image bits tokens) bytes posn
    let posn := posn + if mixedBig image bits tokens then 4 else 2
    let value := temp >>> bits
    match tokens[(temp &&& (((1 : ILUInt32) <<< bits) - 1)).toNat]? with
    | none => throw .outside
    | some token =>
      if token ≠ 1 ∧ token ≠ 2 then
        if value = 0 then return ([0], posn)
        else if value ≤ image.tokenCount (tokenTable token) then return ([value ||| token], posn)
        else throw .badMeta
      else if token ≠ 2 then throw .badMeta
      else return ([tokenString], posn)

def parseFields (bytes : List ILUInt8) : List Field → Nat → Except MetaStop (List ILUInt32 × Nat)
  | [], posn => return ([], posn)
  | .optGen :: rest, posn =>
    if 0 < image.tokenCount (tokenTable tokenGenericConstraint) then
      match rest with
      | [] => throw .outside
      | _ :: rest => do
        let (values, posn) ← parseFields bytes rest posn
        return (0 :: values, posn)
    else parseFields bytes rest posn
  | field :: rest, posn => do
    let (value, posn) ← parseField image sizes bytes posn field
    let (values, posn) ← parseFields bytes rest posn
    return (value ++ values, posn)

def parseToken (desc : Option (List Field)) (bytes : List ILUInt8) (item : Nat) :
    Except MetaStop (List ILUInt32 × Nat) :=
  match desc with
  | some fields => parseFields image sizes bytes fields item
  | none => throw .undocMeta

/-! ### Writing -/

def write16 (value : ILUInt32) : List ILUInt8 := [value.setWidth 8, (value >>> 8).setWidth 8]

def write32 (value : ILUInt32) : List ILUInt8 :=
  [value.setWidth 8, (value >>> 8).setWidth 8, (value >>> 16).setWidth 8, (value >>> 24).setWidth 8]

def writeWidth (big : Bool) (value : ILUInt32) : List ILUInt8 :=
  if big then write32 value else write16 value

/-- The number of the last alternative that a token belongs to, from `val2` on. -/
def mixedTag (token : ILToken) : List ILToken → ILUInt32 → ILUInt32 → ILUInt32
  | [], val, _ => val
  | temp :: rest, val, val2 =>
    let val := if temp = token &&& tokenMask then val2 else val
    let val := if temp = 2 ∧ token &&& tokenMask = tokenString then val2 else val
    mixedTag token rest val (val2 + 1)

/-- The bytes of one field, and the values that are left; `none` where there are too few. -/
def encodeField : Field → List ILUInt32 → Option (List ILUInt8 × List ILUInt32)
  | .strRef, value :: values => some (writeWidth image.strRefBig value, values)
  | .blobRef, value :: _ :: _ :: values => some (writeWidth image.blobRefBig value, values)
  | .guidRef, value :: values =>
    let val := if value = 0xFFFFFFFF then 0 else value / 16 + 1
    some (writeWidth image.guidRefBig val, values)
  | .uint16, value :: values => some (write16 value, values)
  | .uint32, value :: values => some (write32 value, values)
  | .list token, value :: values =>
    let val := if value = 0 then token ||| image.tokenCount (tokenTable token) else value
    some (writeWidth (listBig image token) val, values)
  | .optGen, values => some ([], values)
  | .tkRef token, value :: values => some (writeWidth (tkRefBig image token) value, values)
  | .mixed bits tokens, value :: values =>
    let val := mixedTag value tokens 0 0 ||| ((value &&& ~~~tokenMask) <<< bits)
    some (writeWidth (mixedBig image bits tokens) val, values)
  | _, _ => none

def encodeFields : List Field → List ILUInt32 → Option (List ILUInt8)
  | [], _ => some []
  | .optGen :: rest, values =>
    if 0 < image.tokenCount (tokenTable tokenGenericConstraint) then
      match rest, values with
      | _ :: rest, _ :: values => encodeFields rest values
      | _, _ => none
    else encodeFields rest values
  | field :: rest, values =>
    (encodeField image field values).bind fun (bytes, values) =>
      (encodeFields rest values).map (bytes ++ ·)

def ilImageRawTokenEncode (token : ILToken) (values : List ILUInt32) : Option (List ILUInt8) :=
  match fieldDescriptions (tokenTable token) with
  | none => some []
  | some desc => encodeFields image desc values

/-! ### The whole index -/

/-- Where the index is read, and how much of it is left. -/
structure MetaCursor where
  index : Nat
  size : Nat
deriving DecidableEq, Repr

/-- The token counts behind the header. -/
def parseCounts (blob : List ILUInt8) (typesPresent : ILUInt64) :
    List Nat → ILImage → MetaCursor → Except MetaStop (ILImage × MetaCursor)
  | [], image, cursor => return (image, cursor)
  | type :: types, image, cursor =>
    if typesPresent.getLsbD type then
      if cursor.size < 4 then throw .badMeta
      else do
        let count ← ilReadUInt32 blob cursor.index
        let image := { image with tokenCount := Function.update image.tokenCount type count }
        if 0x00FFFFFF ≤ count then throw .badMeta
        else parseCounts blob typesPresent types image ⟨cursor.index + 4, cursor.size - 4⟩
    else parseCounts blob typesPresent types image cursor

/-- Tables from an undocumented one on are dropped. -/
def clearTypes : List Nat → ILImage × ILUInt64 → ILImage × ILUInt64
  | [], state => state
  | type :: types, (image, typesPresent) =>
    clearTypes types
      ({ image with
          tokenCount := Function.update image.tokenCount type 0
          tokenSize := Function.update image.tokenSize type 0 },
        typesPresent &&& ~~~((1 : ILUInt64) <<< type))

/-- A size as the byte that it is kept in. -/
def sizeByte (sizes : RefSizes) (image : ILImage) (type : Nat) : ILUInt8 :=
  BitVec.ofNat 8 (((fieldDescriptions type).map (tokenSize image sizes)).getD 0)

def sizeTypes (sizes : RefSizes) :
    List Nat → ILImage × ILUInt64 → Except MetaStop (ILImage × ILUInt64)
  | [], state => return state
  | type :: types, (image, typesPresent) =>
    if typesPresent.getLsbD type then
      let size := sizeByte sizes image type
      let image := { image with tokenSize := Function.update image.tokenSize type size }
      if size = 0 then
        if type ≤ tokenTable tokenNestedClass then throw .undocMeta
        else return clearTypes (type :: types) (image, typesPresent)
      else sizeTypes sizes types (image, typesPresent)
    else sizeTypes sizes types (image, typesPresent)

/-- The starting positions of the tables. -/
def startTypes (typesPresent : ILUInt64) :
    List Nat → ILImage → MetaCursor → Except MetaStop ILImage
  | [], image, _ => return image
  | type :: types, image, cursor =>
    if typesPresent.getLsbD type then
      if image.tokenSize type = 0 then throw .byZero
      else if cursor.size / (image.tokenSize type).toNat < (image.tokenCount type).toNat then
        throw .badMeta
      else
        let len := (image.tokenSize type).toNat * (image.tokenCount type).toNat
        startTypes typesPresent types
          { image with tokenStart := Function.update image.tokenStart type cursor.index }
          ⟨cursor.index + len, cursor.size - len⟩
    else startTypes typesPresent types image cursor

/-- One row is looked at after the other; the first error is the result, but a read outside ends
everything. -/
def preValidateRows (blob : List ILUInt8) (type : Nat) :
    List Nat → Option MetaStop → Except MetaStop (Option MetaStop)
  | [], error => return error
  | row :: rows, error =>
    match parseToken image sizes (fieldDescriptions type) blob
        (image.tokenStart type + row * (image.tokenSize type).toNat) with
    | .ok _ => preValidateRows blob type rows error
    | .error .outside => throw .outside
    | .error e => preValidateRows blob type rows (error <|> some e)

def preValidate (blob : List ILUInt8) :
    List Nat → Option MetaStop → Except MetaStop (Option MetaStop)
  | [], error => return error
  | type :: types, error => do
    let error ← preValidateRows image sizes blob type
      (List.range (image.tokenCount type).toNat) error
    preValidate blob types error

/-- `index` is the "#~" entry of the metadata, or else the "#-" entry. -/
def parseMetaIndex (index : Option (List ILUInt8)) (preValidating : Bool) :
    Except MetaStop ILImage := do
  let some blob := index | throw .badMeta
  if blob.length < 24 then throw .badMeta
  let some sizeBits := blob[6]? | throw .outside
  let strRefBig := sizeBits.getLsbD 0
  let guidRefBig := sizeBits.getLsbD 1
  let blobRefBig := sizeBits.getLsbD 2
  let sizes : RefSizes :=
    ⟨if strRefBig then 4 else 2, if blobRefBig then 4 else 2, if guidRefBig then 4 else 2⟩
  let typesPresent ← ilReadUInt64 blob 8
  let sorted ← ilReadUInt64 blob 16
  let (image, cursor) ← parseCounts blob typesPresent (List.range 64)
    { image with sorted := sorted } ⟨24, blob.length - 24⟩
  let (image, typesPresent) ← sizeTypes sizes (List.range 64) (image, typesPresent)
  let image ← startTypes typesPresent (List.range 64) image cursor
  if preValidating then
    if let some e ← preValidate image sizes blob (List.range 64) none then throw e
  return { image with
    strRefBig := strRefBig
    guidRefBig := guidRefBig
    blobRefBig := blobRefBig }

end Pnet.Image
