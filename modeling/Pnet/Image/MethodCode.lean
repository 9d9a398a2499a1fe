import Pnet.CTypes

/-! The code and the exception clauses of a method, `image/member.c`. An address is the
distance from the one that the RVA of the method maps to, and a byte may only be read where
the memory has one. `unsigned long` has 64 bits. Methods of Java classes are left out. -/
namespace Pnet.Image

/-- `ILException`, without what its users keep in it. -/
structure ILException where
  flags : ILUInt32
  tryOffset : ILUInt32
  tryLength : ILUInt32
  handlerOffset : ILUInt32
  handlerLength : ILUInt32
  extraArg : ILUInt32
deriving DecidableEq, Repr

def ilMetaExceptionFilter : ILUInt32 := 0x0001
def ilMetaExceptionFinally : ILUInt32 := 0x0002
def ilMetaExceptionFault : ILUInt32 := 0x0004

namespace MethodCode

abbrev Memory := Nat → Option ILUInt8

inductive MethodStop where
  | outside
  | endless
deriving DecidableEq, Repr

structure ILMethod where
  rva : ILUInt32
  implementAttrs : ILUInt16
deriving DecidableEq, Repr

/-- `code` is an address; `σ` are the signatures of the image. -/
structure ILMethodCode (σ : Type) where
  headerSize : ILUInt32
  maxStack : ILUInt32
  code : Nat
  codeLen : ILUInt32
  localVarSig : Option σ
  initLocals : Bool
  moreSections : Bool
  remaining : ILUInt32
deriving DecidableEq, Repr

def ilMetaMethodImplCodeTypeMask : ILUInt16 := 0x0003
def ilMetaMethodImplIL : ILUInt16 := 0x0000
def ilMetaMethodImplOptIL : ILUInt16 := 0x0002
def ilMetaTokenMask : ILUInt32 := 0xFF000000
def ilMetaTokenStandAloneSig : ILUInt32 := 0x11000000

/-! ### Reading -/

def readByte (m : Memory) (addr : Nat) : Except MethodStop ILUInt8 :=
  match m addr with
  | some b => .ok b
  | none => .error .outside

/-- `IL_READ_UINT16`, widened. -/
def ilReadUInt16 (m : Memory) (addr : Nat) : Except MethodStop ILUInt32 := do
  let b0 ← readByte m addr
  let b1 ← readByte m (addr + 1)
  return (b1.setWidth 32 <<< 8) ||| b0.setWidth 32

def ilReadUInt32 (m : Memory) (addr : Nat) : Except MethodStop ILUInt32 := do
  let b0 ← readByte m addr
  let b1 ← readByte m (addr + 1)
  let b2 ← readByte m (addr + 2)
  let b3 ← readByte m (addr + 3)
  return (b3.setWidth 32 <<< 24) ||| (b2.setWidth 32 <<< 16) ||| (b1.setWidth 32 <<< 8) |||
    b0.setWidth 32

/-! ### `ILMethodGetCode` -/

section

variable {σ : Type} (fromToken : ILUInt32 → Option σ) (isLocals : σ → Bool)

/-- The signature of the local variables, if the token is one. -/
def getLocalVarSig (localVars : ILUInt32) : Option (Option σ) :=
  if localVars ≠ 0 then
    if localVars &&& ilMetaTokenMask ≠ ilMetaTokenStandAloneSig then none
    else match fromToken localVars with
      | some localVarSig => if isLocals localVarSig then some (some localVarSig) else none
      | none => none
  else some none

def getHeader (m : Memory) (len : ILUInt64) :
    Except MethodStop (Option (ILMethodCode σ)) := do
  let first ← readByte m 0
  if first &&& 0x03 = 0x02 then
    return some {
      headerSize := 1
      maxStack := 8
      code := 0
      codeLen := ((first >>> 2) &&& 0x3F).setWidth 32
      localVarSig := none
      initLocals := false
      moreSections := false
      remaining := 0 }
  else if first &&& 0x07 = 0x03 then
    if len < 12 then return none
    let maxStack ← ilReadUInt16 m 2
    let codeLen ← ilReadUInt32 m 4
    let localVars ← ilReadUInt32 m 8
    match getLocalVarSig fromToken isLocals localVars with
    | none => return none
    | some localVarSig =>
      let second ← readByte m 1
      let headerSize := ((second >>> 4) &&& 0x0F).setWidth 32 * 4
      if headerSize < 12 then return none
      return some {
        headerSize := headerSize
        maxStack := maxStack
        code := 0
        codeLen := codeLen
        localVarSig := localVarSig
        initLocals := first &&& 0x10 ≠ 0
        moreSections := first &&& 0x08 ≠ 0
        remaining := 0 }
  else return none

/-- `image` is `ILImageMapRVA`: the memory from the address of the RVA on, and the length. -/
def ilMethodGetCode (image : ILUInt32 → Option (Memory × ILUInt64)) (method : ILMethod) :
    Except MethodStop (Option (ILMethodCode σ)) := do
  if method.rva = 0 ∨
      (method.implementAttrs &&& ilMetaMethodImplCodeTypeMask ≠ ilMetaMethodImplIL ∧
        method.implementAttrs &&& ilMetaMethodImplCodeTypeMask ≠ ilMetaMethodImplOptIL) then
    return none
  match image method.rva with
  | none => return none
  | some (m, len) =>
    if len = 0 then return none
    match ← getHeader fromToken isLocals m len with
    | none => return none
    | some code =>
      let addr := code.headerSize.toNat
      let len := len - code.headerSize.setWidth 64
      if code.codeLen = 0 ∨ len < code.codeLen.setWidth 64 then return none
      let len := len - code.codeLen.setWidth 64
      return some { code with code := addr, remaining := len.setWidth 32 }

end

/-! ### `ILMethodGetExceptions` -/

def readTinyClause (m : Memory) (addr : Nat) : Except MethodStop ILException := do
  let flags ← ilReadUInt16 m addr
  let tryOffset ← ilReadUInt16 m (addr + 2)
  let tryLength ← readByte m (addr + 4)
  let handlerOffset ← ilReadUInt16 m (addr + 5)
  let handlerLength ← readByte m (addr + 7)
  let extraArg ← ilReadUInt32 m (addr + 8)
  return ⟨flags, tryOffset, tryLength.setWidth 32, handlerOffset, handlerLength.setWidth 32,
    extraArg⟩

def readFatClause (m : Memory) (addr : Nat) : Except MethodStop ILException := do
  let flags ← ilReadUInt32 m addr
  let tryOffset ← ilReadUInt32 m (addr + 4)
  let tryLength ← ilReadUInt32 m (addr + 8)
  let handlerOffset ← ilReadUInt32 m (addr + 12)
  let handlerLength ← ilReadUInt32 m (addr + 16)
  let extraArg ← ilReadUInt32 m (addr + 20)
  return ⟨flags, tryOffset, tryLength, handlerOffset, handlerLength, extraArg⟩

/-- `for(posn = 0; (posn + size) <= sectSize; posn += size)` -/
def readClauses (readClause : Nat → Except MethodStop ILException) (size : ILUInt64)
    (addr : Nat) (sectSize : ILUInt64) : Nat → ILUInt64 → Except MethodStop (List ILException)
  | 0, _ => .error .endless
  | fuel + 1, posn =>
    if posn + size ≤ sectSize then do
      let newException ← readClause (addr + posn.toNat)
      let exceptions ← readClauses readClause size addr sectSize fuel (posn + size)
      return newException :: exceptions
    else .ok []

/-- `sectSize`, which includes the header. -/
def readSectSize (m : Memory) (addr : Nat) (kind : ILUInt8) : Except MethodStop ILUInt64 :=
  if kind &&& 0x40 = 0 then do
    let b0 ← readByte m (addr + 1)
    return b0.setWidth 64
  else do
    let b0 ← readByte m (addr + 1)
    let b1 ← readByte m (addr + 2)
    let b2 ← readByte m (addr + 3)
    return (b2.setWidth 64 <<< 16) ||| (b1.setWidth 64 <<< 8) ||| b0.setWidth 64

/-- The clauses of a section of this kind whose contents are at `addr`. -/
def readSection (m : Memory) (kind : ILUInt8) (addr : Nat) (sectSize : ILUInt64) :
    Except MethodStop (List ILException) :=
  if kind &&& 0x3F = 0x01 then
    if kind &&& 0x40 = 0 then
      readClauses (readTinyClause m) 12 addr sectSize (sectSize.toNat + 1) 0
    else readClauses (readFatClause m) 24 addr sectSize (sectSize.toNat + 1) 0
  else .ok []

/-- The sections from `addr` on, where `len` bytes remain. -/
def readSections (m : Memory) :
    Nat → Bool → Nat → ILUInt64 → ILUInt64 → Except MethodStop (List ILException)
  | 0, _, _, _, _ => .error .endless
  | fuel + 1, moreSections, addr, rva, len =>
    if ¬ moreSections then .ok []
    else
      let adjust := if rva &&& 3 ≠ 0 then 4 - (rva &&& 3) else 0
      if adjust > len then .ok []
      else
        let addr := addr + adjust.toNat
        let len := len - adjust
        let rva := rva + adjust
        if len < 4 then .ok []
        else do
          let kind ← readByte m addr
          let sectSize ← readSectSize m addr kind
          if sectSize < 4 ∨ len < sectSize then return []
          let sectSize := sectSize - 4
          let exceptions ← readSection m kind (addr + 4) sectSize
          let rest ← readSections m fuel (kind &&& 0x80 ≠ 0) (addr + 4 + sectSize.toNat)
            (rva + 4 + sectSize) (len - 4 - sectSize)
          return exceptions ++ rest

/-- The clauses of the method, from its code and what remains behind it. -/
def ilMethodGetExceptions {σ : Type} (m : Memory) (method : ILMethod) (code : ILMethodCode σ) :
    Except MethodStop (List ILException) :=
  readSections m (code.remaining.toNat + 1) code.moreSections (code.code + code.codeLen.toNat)
    ((method.rva + code.headerSize + code.codeLen).setWidth 64) (code.remaining.setWidth 64)

end MethodCode

end Pnet.Image
