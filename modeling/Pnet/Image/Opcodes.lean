import Pnet.CTypes

/-! The opcode tables of `image/opdef.c`, four opcodes a line: what an instruction
pops and pushes, the kind of its operand and its size in bytes, zero where the
operand says. -/
namespace Pnet.Image

/-- `IL_OPCODE_ARGS_*` -/
inductive OpcodeArgs where
  | invalid | none | int8 | uint8 | int16 | uint16 | int32 | int64 | float32 | float64 | token
  | shortVar | longVar | shortArg | longArg | shortJump | longJump | call | calli | callvirt
  | switch | string | new | annData | annDead | annRef | annPhi | annLive | annArg | ldtoken
deriving DecidableEq, Repr

structure ILOpcodeInfo where
  popped : ILUInt8
  pushed : ILUInt8
  args : OpcodeArgs
  size : ILUInt8
deriving DecidableEq, Repr

def ilMainOpcodeTable : List ILOpcodeInfo :=
  [⟨0, 0, .none, 1⟩, ⟨0, 0, .none, 1⟩, ⟨0, 1, .none, 1⟩, ⟨0, 1, .none, 1⟩,
   ⟨0, 1, .none, 1⟩, ⟨0, 1, .none, 1⟩, ⟨0, 1, .none, 1⟩, ⟨0, 1, .none, 1⟩,
   ⟨0, 1, .none, 1⟩, ⟨0, 1, .none, 1⟩, ⟨1, 0, .none, 1⟩, ⟨1, 0, .none, 1⟩,
   ⟨1, 0, .none, 1⟩, ⟨1, 0, .none, 1⟩, ⟨0, 1, .shortArg, 2⟩, ⟨0, 1, .shortArg, 2⟩,
   ⟨1, 0, .shortArg, 2⟩, ⟨0, 1, .shortVar, 2⟩, ⟨0, 1, .shortVar, 2⟩, ⟨1, 0, .shortVar, 2⟩,
   ⟨0, 1, .none, 1⟩, ⟨0, 1, .none, 1⟩, ⟨0, 1, .none, 1⟩, ⟨0, 1, .none, 1⟩,
   ⟨0, 1, .none, 1⟩, ⟨0, 1, .none, 1⟩, ⟨0, 1, .none, 1⟩, ⟨0, 1, .none, 1⟩,
   ⟨0, 1, .none, 1⟩, ⟨0, 1, .none, 1⟩, ⟨0, 1, .none, 1⟩, ⟨0, 1, .int8, 2⟩,
   ⟨0, 1, .int32, 5⟩, ⟨0, 1, .int64, 9⟩, ⟨0, 1, .float32, 5⟩, ⟨0, 1, .float64, 9⟩,
   ⟨0, 1, .int32, 5⟩, ⟨1, 2, .none, 1⟩, ⟨1, 0, .none, 1⟩, ⟨0, 0, .call, 5⟩,
   ⟨0, 0, .call, 5⟩, ⟨0, 0, .calli, 5⟩, ⟨0, 0, .none, 1⟩, ⟨0, 0, .shortJump, 2⟩,
   ⟨1, 0, .shortJump, 2⟩, ⟨1, 0, .shortJump, 2⟩, ⟨2, 0, .shortJump, 2⟩, ⟨2, 0, .shortJump, 2⟩,
   ⟨2, 0, .shortJump, 2⟩, ⟨2, 0, .shortJump, 2⟩, ⟨2, 0, .shortJump, 2⟩, ⟨2, 0, .shortJump, 2⟩,
   ⟨2, 0, .shortJump, 2⟩, ⟨2, 0, .shortJump, 2⟩, ⟨2, 0, .shortJump, 2⟩, ⟨2, 0, .shortJump, 2⟩,
   ⟨0, 0, .longJump, 5⟩, ⟨1, 0, .longJump, 5⟩, ⟨1, 0, .longJump, 5⟩, ⟨2, 0, .longJump, 5⟩,
   ⟨2, 0, .longJump, 5⟩, ⟨2, 0, .longJump, 5⟩, ⟨2, 0, .longJump, 5⟩, ⟨2, 0, .longJump, 5⟩,
   ⟨2, 0, .longJump, 5⟩, ⟨2, 0, .longJump, 5⟩, ⟨2, 0, .longJump, 5⟩, ⟨2, 0, .longJump, 5⟩,
   ⟨2, 0, .longJump, 5⟩, ⟨1, 0, .switch, 0⟩, ⟨1, 1, .none, 1⟩, ⟨1, 1, .none, 1⟩,
   ⟨1, 1, .none, 1⟩, ⟨1, 1, .none, 1⟩, ⟨1, 1, .none, 1⟩, ⟨1, 1, .none, 1⟩,
   ⟨1, 1, .none, 1⟩, ⟨1, 1, .none, 1⟩, ⟨1, 1, .none, 1⟩, ⟨1, 1, .none, 1⟩,
   ⟨1, 1, .none, 1⟩, ⟨2, 0, .none, 1⟩, ⟨2, 0, .none, 1⟩, ⟨2, 0, .none, 1⟩,
   ⟨2, 0, .none, 1⟩, ⟨2, 0, .none, 1⟩, ⟨2, 0, .none, 1⟩, ⟨2, 0, .none, 1⟩,
   ⟨2, 1, .none, 1⟩, ⟨2, 1, .none, 1⟩, ⟨2, 1, .none, 1⟩, ⟨2, 1, .none, 1⟩,
   ⟨2, 1, .none, 1⟩, ⟨2, 1, .none, 1⟩, ⟨2, 1, .none, 1⟩, ⟨2, 1, .none, 1⟩,
   ⟨2, 1, .none, 1⟩, ⟨2, 1, .none, 1⟩, ⟨2, 1, .none, 1⟩, ⟨2, 1, .none, 1⟩,
   ⟨2, 1, .none, 1⟩, ⟨1, 1, .none, 1⟩, ⟨1, 1, .none, 1⟩, ⟨1, 1, .none, 1⟩,
   ⟨1, 1, .none, 1⟩, ⟨1, 1, .none, 1⟩, ⟨1, 1, .none, 1⟩, ⟨1, 1, .none, 1⟩,
   ⟨1, 1, .none, 1⟩, ⟨1, 1, .none, 1⟩, ⟨1, 1, .none, 1⟩, ⟨0, 0, .callvirt, 5⟩,
   ⟨2, 0, .token, 5⟩, ⟨1, 1, .token, 5⟩, ⟨0, 1, .string, 5⟩, ⟨0, 0, .new, 5⟩,
   ⟨1, 1, .token, 5⟩, ⟨1, 1, .token, 5⟩, ⟨1, 1, .none, 1⟩, ⟨0, 0, .annData, 0⟩,
   ⟨0, 0, .invalid, 1⟩, ⟨1, 1, .token, 5⟩, ⟨1, 0, .none, 1⟩, ⟨1, 1, .token, 5⟩,
   ⟨1, 1, .token, 5⟩, ⟨2, 0, .token, 5⟩, ⟨0, 1, .token, 5⟩, ⟨0, 1, .token, 5⟩,
   ⟨1, 0, .token, 5⟩, ⟨2, 0, .token, 5⟩, ⟨1, 1, .none, 1⟩, ⟨1, 1, .none, 1⟩,
   ⟨1, 1, .none, 1⟩, ⟨1, 1, .none, 1⟩, ⟨1, 1, .none, 1⟩, ⟨1, 1, .none, 1⟩,
   ⟨1, 1, .none, 1⟩, ⟨1, 1, .none, 1⟩, ⟨1, 1, .none, 1⟩, ⟨1, 1, .none, 1⟩,
   ⟨1, 1, .token, 5⟩, ⟨1, 1, .token, 5⟩, ⟨1, 1, .none, 1⟩, ⟨2, 1, .token, 5⟩,
   ⟨2, 1, .none, 1⟩, ⟨2, 1, .none, 1⟩, ⟨2, 1, .none, 1⟩, ⟨2, 1, .none, 1⟩,
   ⟨2, 1, .none, 1⟩, ⟨2, 1, .none, 1⟩, ⟨2, 1, .none, 1⟩, ⟨2, 1, .none, 1⟩,
   ⟨2, 1, .none, 1⟩, ⟨2, 1, .none, 1⟩, ⟨2, 1, .none, 1⟩, ⟨3, 0, .none, 1⟩,
   ⟨3, 0, .none, 1⟩, ⟨3, 0, .none, 1⟩, ⟨3, 0, .none, 1⟩, ⟨3, 0, .none, 1⟩,
   ⟨3, 0, .none, 1⟩, ⟨3, 0, .none, 1⟩, ⟨3, 0, .none, 1⟩, ⟨2, 1, .token, 5⟩,
   ⟨3, 0, .token, 5⟩, ⟨1, 1, .token, 5⟩, ⟨0, 0, .invalid, 1⟩, ⟨0, 0, .invalid, 1⟩,
   ⟨0, 0, .invalid, 1⟩, ⟨0, 0, .invalid, 1⟩, ⟨0, 0, .invalid, 1⟩, ⟨0, 0, .invalid, 1⟩,
   ⟨0, 0, .invalid, 1⟩, ⟨0, 0, .invalid, 1⟩, ⟨0, 0, .invalid, 1⟩, ⟨0, 0, .invalid, 1⟩,
   ⟨0, 0, .invalid, 1⟩, ⟨0, 0, .invalid, 1⟩, ⟨0, 0, .invalid, 1⟩, ⟨1, 1, .none, 1⟩,
   ⟨1, 1, .none, 1⟩, ⟨1, 1, .none, 1⟩, ⟨1, 1, .none, 1⟩, ⟨1, 1, .none, 1⟩,
   ⟨1, 1, .none, 1⟩, ⟨1, 1, .none, 1⟩, ⟨1, 1, .none, 1⟩, ⟨0, 0, .invalid, 1⟩,
   ⟨0, 0, .invalid, 1⟩, ⟨0, 0, .invalid, 1⟩, ⟨0, 0, .invalid, 1⟩, ⟨0, 0, .invalid, 1⟩,
   ⟨0, 0, .invalid, 1⟩, ⟨0, 0, .invalid, 1⟩, ⟨1, 1, .token, 5⟩, ⟨1, 1, .none, 1⟩,
   ⟨0, 0, .invalid, 1⟩, ⟨0, 0, .invalid, 1⟩, ⟨1, 1, .token, 5⟩, ⟨0, 0, .token, 5⟩,
   ⟨0, 0, .none, 1⟩, ⟨0, 0, .annDead, 3⟩, ⟨0, 0, .none, 1⟩, ⟨0, 0, .token, 5⟩,
   ⟨0, 0, .none, 1⟩, ⟨0, 0, .none, 1⟩, ⟨0, 0, .annRef, 2⟩, ⟨0, 0, .annPhi, 0⟩,
   ⟨0, 1, .ldtoken, 5⟩, ⟨1, 1, .none, 1⟩, ⟨1, 1, .none, 1⟩, ⟨1, 1, .none, 1⟩,
   ⟨1, 1, .none, 1⟩, ⟨1, 1, .none, 1⟩, ⟨2, 1, .none, 1⟩, ⟨2, 1, .none, 1⟩,
   ⟨2, 1, .none, 1⟩, ⟨2, 1, .none, 1⟩, ⟨2, 1, .none, 1⟩, ⟨2, 1, .none, 1⟩,
   ⟨0, 0, .none, 1⟩, ⟨0, 0, .longJump, 5⟩, ⟨0, 0, .shortJump, 2⟩, ⟨2, 0, .none, 1⟩,
   ⟨1, 1, .none, 1⟩, ⟨0, 0, .invalid, 1⟩, ⟨0, 0, .invalid, 1⟩, ⟨0, 0, .invalid, 1⟩,
   ⟨0, 0, .invalid, 1⟩, ⟨0, 0, .invalid, 1⟩, ⟨0, 0, .invalid, 1⟩, ⟨0, 0, .invalid, 1⟩,
   ⟨0, 0, .invalid, 1⟩, ⟨0, 0, .invalid, 1⟩, ⟨0, 0, .invalid, 1⟩, ⟨0, 0, .invalid, 1⟩,
   ⟨0, 0, .invalid, 1⟩, ⟨0, 0, .invalid, 1⟩, ⟨0, 0, .invalid, 1⟩, ⟨0, 0, .invalid, 1⟩,
   ⟨0, 0, .invalid, 1⟩, ⟨0, 0, .invalid, 1⟩, ⟨0, 0, .invalid, 1⟩, ⟨0, 0, .invalid, 1⟩,
   ⟨0, 0, .invalid, 1⟩, ⟨0, 0, .invalid, 1⟩, ⟨0, 0, .invalid, 1⟩, ⟨0, 0, .invalid, 1⟩,
   ⟨0, 0, .invalid, 1⟩, ⟨0, 0, .invalid, 1⟩, ⟨0, 0, .invalid, 1⟩, ⟨0, 0, .invalid, 1⟩,
   ⟨0, 0, .invalid, 1⟩, ⟨0, 0, .invalid, 1⟩, ⟨0, 0, .invalid, 0⟩, ⟨0, 0, .invalid, 1⟩]

/-- Every entry past 0x23 is unused. -/
def ilPrefixOpcodeTable : List ILOpcodeInfo :=
  [⟨0, 1, .none, 2⟩, ⟨2, 1, .none, 2⟩, ⟨2, 1, .none, 2⟩, ⟨2, 1, .none, 2⟩,
   ⟨2, 1, .none, 2⟩, ⟨2, 1, .none, 2⟩, ⟨0, 1, .token, 6⟩, ⟨1, 1, .token, 6⟩,
   ⟨1, 0, .calli, 6⟩, ⟨0, 1, .longVar, 4⟩, ⟨0, 1, .longVar, 4⟩, ⟨1, 0, .longVar, 4⟩,
   ⟨0, 1, .longVar, 4⟩, ⟨0, 1, .longVar, 4⟩, ⟨1, 0, .longVar, 4⟩, ⟨1, 1, .none, 2⟩,
   ⟨0, 0, .invalid, 2⟩, ⟨1, 0, .none, 2⟩, ⟨0, 0, .uint8, 3⟩, ⟨0, 0, .none, 2⟩,
   ⟨0, 0, .none, 2⟩, ⟨1, 0, .token, 6⟩, ⟨0, 0, .token, 6⟩, ⟨3, 0, .none, 2⟩,
   ⟨3, 0, .none, 2⟩, ⟨0, 0, .uint8, 3⟩, ⟨0, 0, .none, 2⟩, ⟨0, 0, .invalid, 2⟩,
   ⟨0, 1, .token, 6⟩, ⟨1, 1, .none, 2⟩, ⟨0, 0, .none, 2⟩, ⟨0, 0, .invalid, 2⟩,
   ⟨0, 0, .invalid, 2⟩, ⟨0, 0, .invalid, 2⟩, ⟨0, 0, .annData, 0⟩, ⟨0, 0, .annArg, 4⟩] ++
    List.replicate 220 ⟨0, 0, .invalid, 2⟩

def mainOpcodeInfo (opcode : ILUInt8) : ILOpcodeInfo :=
  ilMainOpcodeTable.getD opcode.toNat ⟨0, 0, .invalid, 1⟩

def prefixOpcodeInfo (opcode : ILUInt8) : ILOpcodeInfo :=
  ilPrefixOpcodeTable.getD opcode.toNat ⟨0, 0, .invalid, 2⟩

end Pnet.Image
