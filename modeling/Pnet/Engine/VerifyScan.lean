import Pnet.Image.Opcodes
import Pnet.Lib.Loop

/-! The first pass of `_ILVerify` over a method body: find where the instructions
start, mark what the branches jump to, and check the marks against the starts. -/
namespace Pnet.Engine
open Pnet.Lib Pnet.Image

/-- A method body; `codeLen` is a 32-bit field. -/
structure ILMethodCode where
  code : List ILUInt8
  fits : code.length < 2 ^ 32

namespace ILMethodCode

def codeLen (body : ILMethodCode) : ILUInt32 := BitVec.ofNat 32 body.code.length

def byteAt (body : ILMethodCode) (pc : Nat) : ILUInt8 := body.code.getD pc 0

def readUInt16 (body : ILMethodCode) (pc : Nat) : ILUInt16 :=
  body.byteAt (pc + 1) ++ body.byteAt pc

def readUInt32 (body : ILMethodCode) (pc : Nat) : ILUInt32 :=
  body.byteAt (pc + 3) ++ body.byteAt (pc + 2) ++ body.byteAt (pc + 1) ++ body.byteAt pc

end ILMethodCode

/-- What a `VERIFY_*` exit reports. -/
inductive VerifyError where
  | truncated | branch | insn | stack | type | prefixFlags | memory
deriving DecidableEq, Repr

def ilOpPrefix : ILUInt8 := 0xFE
def ilOpAnnDataS : Nat := 0x77
def ilPrefixOpRethrow : ILUInt8 := 0x1A

/-! ### The jump mask -/

/-- Three bits for each offset: "instruction start", "jump target" and "special
jump target". -/
abbrev JumpMask := ILUInt32 → Bool

def JumpMask.set (mask : JumpMask) (bit : ILUInt32) : JumpMask := fun b => b == bit || mask b

def markInsnStart (mask : JumpMask) (offset : ILUInt32) : JumpMask := mask.set (offset * 3)
def markJumpTarget (mask : JumpMask) (offset : ILUInt32) : JumpMask := mask.set (offset * 3 + 1)
def markSpecialJumpTarget (mask : JumpMask) (offset : ILUInt32) : JumpMask :=
  mask.set (offset * 3 + 2)

def isInsnStart (mask : JumpMask) (offset : ILUInt32) : Bool := mask (offset * 3)
def isJumpTarget (mask : JumpMask) (offset : ILUInt32) : Bool := mask (offset * 3 + 1)
def isSpecialJumpTarget (mask : JumpMask) (offset : ILUInt32) : Bool := mask (offset * 3 + 2)

/-- `BYTES_FOR_MASK`, for an `unsigned long` of eight bytes. -/
def bytesForMask (size : ILUInt32) : Nat := ((size * 3).toNat + 63) / 64 * 8

/-! ### One instruction -/

/-- The opcode, with prefixed ones above the plain ones, and its table entry. -/
structure FetchedInsn where
  opcode : Nat
  insnSize : ILUInt32
  insnType : OpcodeArgs

def fetchInsn (body : ILMethodCode) (pc : Nat) (len : ILUInt32) : Except VerifyError FetchedInsn :=
  let opcode := body.byteAt pc
  if opcode ≠ ilOpPrefix then
    let info := mainOpcodeInfo opcode
    let insnSize := info.size.setWidth 32
    if len < insnSize then .error .truncated else .ok ⟨opcode.toNat, insnSize, info.args⟩
  else if len < 2 then .error .truncated
  else
    let opcode := body.byteAt (pc + 1)
    let info := prefixOpcodeInfo opcode
    let insnSize := info.size.setWidth 32
    if len < insnSize then .error .truncated
    else .ok ⟨opcode.toNat + ilOpPrefix.toNat, insnSize, info.args⟩

/-- A jump has to stay in the code. -/
def jumpTarget (body : ILMethodCode) (offset : ILUInt32) : Except VerifyError ILUInt32 :=
  if offset ≥ body.codeLen then .error .branch else .ok offset

/-- The arms of a switch, from the last one down. -/
def switchTargets (body : ILMethodCode) (base : ILUInt32) (pc : Nat) :
    Nat → Except VerifyError (List ILUInt32)
  | 0 => .ok []
  | numArgs + 1 => do
    let target ← jumpTarget body (base + body.readUInt32 (pc + 5 + numArgs * 4))
    let rest ← switchTargets body base pc numArgs
    .ok (target :: rest)

/-- The size of an instruction and the offsets it may jump to. -/
structure ScannedInsn where
  insnSize : ILUInt32
  targets : List ILUInt32

def operandInsn (body : ILMethodCode) (pc : Nat) (len : ILUInt32) (insn : FetchedInsn) :
    Except VerifyError ScannedInsn :=
  match insn.insnType with
  | .shortJump => do
    let target ← jumpTarget body
      (BitVec.ofNat 32 pc + insn.insnSize + (body.byteAt (pc + 1)).signExtend 32)
    .ok ⟨insn.insnSize, [target]⟩
  | .longJump => do
    let target ← jumpTarget body
      (BitVec.ofNat 32 pc + insn.insnSize + body.readUInt32 (pc + 1))
    .ok ⟨insn.insnSize, [target]⟩
  | .switch =>
    if len < 5 then .error .truncated
    else
      let numArgs := body.readUInt32 (pc + 1)
      let insnSize := 5 + numArgs * 4
      if numArgs ≥ 0x20000000 ∨ len < insnSize then .error .truncated
      else do
        let targets ← switchTargets body (BitVec.ofNat 32 pc + insnSize) pc numArgs.toNat
        .ok ⟨insnSize, targets⟩
  | .annData =>
    if insn.opcode = ilOpAnnDataS then
      if len < 2 then .error .truncated
      else
        let insnSize := (body.byteAt (pc + 1)).setWidth 32 + 2
        if len < insnSize then .error .truncated else .ok ⟨insnSize, []⟩
    else if len < 6 then .error .truncated
    else
      let insnSize := body.readUInt32 (pc + 2) + 6
      if len < insnSize then .error .truncated else .ok ⟨insnSize, []⟩
  | .annPhi =>
    if len < 3 then .error .truncated
    else
      let insnSize := (body.readUInt16 (pc + 1)).setWidth 32 * 2 + 3
      if len < insnSize then .error .truncated else .ok ⟨insnSize, []⟩
  | .invalid => .error .insn
  | _ => .ok ⟨insn.insnSize, []⟩

def scanInsn (body : ILMethodCode) (pc : Nat) (len : ILUInt32) : Except VerifyError ScannedInsn := do
  let insn ← fetchInsn body pc len
  operandInsn body pc len insn

/-! ### The pass -/

structure ScanState where
  pc : Nat
  len : ILUInt32
  jumpMask : JumpMask
  hasRethrow : Bool

def scanStep (body : ILMethodCode) (s : ScanState) : Except VerifyError ScanState := do
  let insn ← scanInsn body s.pc s.len
  .ok { pc := s.pc + insn.insnSize.toNat
        len := s.len - insn.insnSize
        jumpMask := insn.targets.foldl markJumpTarget
          (markInsnStart s.jumpMask (BitVec.ofNat 32 s.pc))
        hasRethrow := s.hasRethrow ||
          (body.byteAt s.pc == ilOpPrefix && body.byteAt (s.pc + 1) == ilPrefixOpRethrow) }

def scanStart (body : ILMethodCode) : ScanState := ⟨0, body.codeLen, fun _ => false, false⟩

def scanDone (s : ScanState) : Bool := s.len == 0

/-- The code offsets of an exception block. -/
structure ILCoderExceptionBlock where
  startOffset : ILUInt32
  endOffset : ILUInt32
deriving DecidableEq, Repr

/-- The exception blocks of a method; their setup keeps them inside the code and
the `extraCodeLen` bytes that a synchronized method gets. -/
structure ILCoderExceptions (body : ILMethodCode) (extraCodeLen : Nat) where
  blocks : List ILCoderExceptionBlock
  inside : ∀ block ∈ blocks, block.startOffset.toNat ≤ body.code.length + extraCodeLen ∧
    block.endOffset.toNat ≤ body.code.length + extraCodeLen

def markBlock (mask : JumpMask) (block : ILCoderExceptionBlock) : JumpMask :=
  let mask := markSpecialJumpTarget (markJumpTarget mask block.startOffset) block.startOffset
  markSpecialJumpTarget (markJumpTarget mask block.endOffset) block.endOffset

/-- All jump targets below an offset are instruction starts. -/
def targetsAreStarts (mask : JumpMask) : Nat → Bool
  | 0 => true
  | len + 1 =>
    !(isJumpTarget mask (BitVec.ofNat 32 len) && !isInsnStart mask (BitVec.ofNat 32 len)) &&
      targetsAreStarts mask len

/-- Returns the mask and `hasRethrow`; `none` is a scan of more than `fuel` rounds. -/
def firstPass (fuel : Nat) (body : ILMethodCode) {extraCodeLen : Nat}
    (exceptions : ILCoderExceptions body extraCodeLen) :
    Option (Except VerifyError (JumpMask × Bool)) :=
  match run scanDone (scanStep body) fuel (scanStart body) with
  | none => none
  | some (.error e) => some (.error e)
  | some (.ok s) =>
    let mask := exceptions.blocks.foldl markBlock s.jumpMask
    if targetsAreStarts mask body.code.length then some (.ok (mask, s.hasRethrow))
    else some (.error .branch)

end Pnet.Engine
