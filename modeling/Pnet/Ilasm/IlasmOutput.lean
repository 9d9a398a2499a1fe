import Pnet.CTypes

/-! How `ilasm/ilasm_output.c` puts out the instructions whose operand is the number of a
variable or an integer constant. -/
namespace Pnet.Ilasm

/-! ### Opcodes -/

def ilOpLdarg0 : ILInt32 := 0x02
def ilOpLdloc0 : ILInt32 := 0x06
def ilOpStloc0 : ILInt32 := 0x0A
def ilOpLdargS : ILInt32 := 0x0E
def ilOpLdargaS : ILInt32 := 0x0F
def ilOpStargS : ILInt32 := 0x10
def ilOpLdlocS : ILInt32 := 0x11
def ilOpLdlocaS : ILInt32 := 0x12
def ilOpStlocS : ILInt32 := 0x13
def ilOpLdcI4M1 : ILInt32 := 0x15
def ilOpLdcI40 : ILInt32 := 0x16
def ilOpLdcI4S : ILInt32 := 0x1F
def ilOpLdcI4 : ILInt32 := 0x20
def ilOpLdcI8 : ILInt32 := 0x21
def ilOpConvI8 : ILInt32 := 0x6A
def ilOpConvU8 : ILInt32 := 0x6E
def ilOpAnnDead : ILInt32 := 0xC9
def ilOpAnnRefS : ILInt32 := 0xCE
def ilOpPrefix : ILInt32 := 0xFE

/-- `0xFE00 | IL_PREFIX_OP_LDARG` and so on -/
def ilPrefixOpLdarg : ILInt32 := 0xFE09
def ilPrefixOpLdarga : ILInt32 := 0xFE0A
def ilPrefixOpStarg : ILInt32 := 0xFE0B
def ilPrefixOpLdloc : ILInt32 := 0xFE0C
def ilPrefixOpLdloca : ILInt32 := 0xFE0D
def ilPrefixOpStloc : ILInt32 := 0xFE0E
def ilPrefixOpUnaligned : ILInt32 := 0xFE12
def ilPrefixOpNo : ILInt32 := 0xFE19

/-! ### Output -/

/-- The bytes that a call puts out, what it prints, and whether it sets `ILAsmErrors`. -/
structure AsmOut where
  bytes : List ILUInt8
  messages : List String
  errors : Bool
deriving DecidableEq, Repr

def outOnly (bytes : List ILUInt8) : AsmOut := ⟨bytes, [], false⟩

def shortInsnsWarning : String := "warning: argument too large for short instruction"

def largeArgError : AsmOut := ⟨[], ["argument too large for instruction"], true⟩

def outByte {w : Nat} (byte : BitVec w) : ILUInt8 := byte.setWidth 8

/-- `OUT_BYTE(num)`, `OUT_BYTE(num >> 8)` and so on, so many bytes -/
def outBytes : Nat → ILInt64 → List ILUInt8
  | 0, _ => []
  | size + 1, num => outByte num :: outBytes size (num.sshiftRight 8)

/-- The prefix byte, for an opcode that has one. -/
def outPrefix (opcode : ILInt32) : List ILUInt8 :=
  if 0x0100 ≤ opcode.toInt then [outByte ilOpPrefix] else []

/-- Output a variable reference when a long instruction is used. -/
def outLongVar (ilAsmShortInsns : Bool) (lopcode sopcode topcode : ILInt32) (num : ILInt64) :
    AsmOut :=
  if ilAsmShortInsns ∧ sopcode ≠ 0 ∧ 0 ≤ num.toInt ∧ num.toInt < 256 then
    if topcode ≠ 0 ∧ num.toInt < 4 then outOnly [outByte (topcode.signExtend 64 + num)]
    else outOnly (outPrefix sopcode ++ [outByte sopcode, outByte num])
  else if 0 ≤ num.toInt ∧ num.toInt < 65536 then
    outOnly (outPrefix lopcode ++ outByte lopcode :: outBytes 2 num)
  else largeArgError

/-- Output a variable reference when a short instruction is used. -/
def outShortVar (ilAsmShortInsns : Bool) (lopcode sopcode topcode : ILInt32) (num : ILInt64) :
    AsmOut :=
  if ilAsmShortInsns ∧ topcode ≠ 0 ∧ 0 ≤ num.toInt ∧ num.toInt < 4 then
    outOnly [outByte (topcode.signExtend 64 + num)]
  else if 0 ≤ num.toInt ∧ num.toInt < 256 then
    outOnly (outPrefix sopcode ++ [outByte sopcode, outByte num])
  else if 0 ≤ num.toInt ∧ num.toInt < 65536 then
    { bytes := outPrefix lopcode ++ outByte ilOpPrefix :: outByte lopcode :: outBytes 2 num
      messages := if ilAsmShortInsns then [] else [shortInsnsWarning]
      errors := false }
  else largeArgError

def ilAsmOutVar (ilAsmShortInsns : Bool) (opcode : ILInt32) (num : ILInt64) : AsmOut :=
  if opcode = ilOpAnnDead then outLongVar ilAsmShortInsns opcode 0 0 num
  else if opcode = ilPrefixOpLdarg then
    outLongVar ilAsmShortInsns ilPrefixOpLdarg ilOpLdargS ilOpLdarg0 num
  else if opcode = ilOpLdargS then
    outShortVar ilAsmShortInsns ilPrefixOpLdarg ilOpLdargS ilOpLdarg0 num
  else if opcode = ilPrefixOpLdarga then
    outLongVar ilAsmShortInsns ilPrefixOpLdarga ilOpLdargaS 0 num
  else if opcode = ilOpLdargaS then
    outShortVar ilAsmShortInsns ilPrefixOpLdarga ilOpLdargaS 0 num
  else if opcode = ilPrefixOpLdloc then
    outLongVar ilAsmShortInsns ilPrefixOpLdloc ilOpLdlocS ilOpLdloc0 num
  else if opcode = ilOpLdlocS then
    outShortVar ilAsmShortInsns ilPrefixOpLdloc ilOpLdlocS ilOpLdloc0 num
  else if opcode = ilPrefixOpLdloca then
    outLongVar ilAsmShortInsns ilPrefixOpLdloca ilOpLdlocaS 0 num
  else if opcode = ilOpLdlocaS then
    outShortVar ilAsmShortInsns ilPrefixOpLdloca ilOpLdlocaS 0 num
  else if opcode = ilPrefixOpStarg then
    outLongVar ilAsmShortInsns ilPrefixOpStarg ilOpStargS 0 num
  else if opcode = ilOpStargS then
    outShortVar ilAsmShortInsns ilPrefixOpStarg ilOpStargS 0 num
  else if opcode = ilPrefixOpStloc then
    outLongVar ilAsmShortInsns ilPrefixOpStloc ilOpStlocS ilOpStloc0 num
  else if opcode = ilOpStlocS then
    outShortVar ilAsmShortInsns ilPrefixOpStloc ilOpStlocS ilOpStloc0 num
  else outOnly []

def ilAsmOutInt (ilAsmShortInsns : Bool) (opcode : ILInt32) (value : ILInt64) : AsmOut :=
  if opcode = ilOpLdcI4 ∨ opcode = ilOpLdcI4S then
    if ilAsmShortInsns ∧ -1 ≤ value.toInt ∧ value.toInt ≤ 8 then
      if value = -1 then outOnly [outByte ilOpLdcI4M1]
      else outOnly [outByte (ilOpLdcI40.signExtend 64 + value)]
    else if (ilAsmShortInsns ∨ opcode = ilOpLdcI4S) ∧ -128 ≤ value.toInt ∧ value.toInt ≤ 127 then
      outOnly [outByte ilOpLdcI4S, outByte value]
    else if -0x80000000 ≤ value.toInt ∧ value.toInt ≤ 0xFFFFFFFF then
      { bytes := outByte ilOpLdcI4 :: outBytes 4 value
        messages :=
          if ¬ ilAsmShortInsns ∧ opcode = ilOpLdcI4S then [shortInsnsWarning] else []
        errors := false }
    else largeArgError
  else if opcode = ilOpLdcI8 then
    if ilAsmShortInsns then
      if value = -1 then outOnly [outByte ilOpLdcI4M1, outByte ilOpConvI8]
      else if 0 ≤ value.toInt ∧ value.toInt ≤ 8 then
        outOnly [outByte (ilOpLdcI40.signExtend 64 + value), outByte ilOpConvI8]
      else if -0x80000000 ≤ value.toInt ∧ value.toInt ≤ 0x7FFFFFFF then
        outOnly (outByte ilOpLdcI4 :: outBytes 4 value ++ [outByte ilOpConvI8])
      else if 0 ≤ value.toInt ∧ value.toInt ≤ 0xFFFFFFFF then
        outOnly (outByte ilOpLdcI4 :: outBytes 4 value ++ [outByte ilOpConvU8])
      else outOnly (outByte ilOpLdcI8 :: outBytes 8 value)
    else outOnly (outByte ilOpLdcI8 :: outBytes 8 value)
  else if opcode = ilPrefixOpUnaligned then
    outOnly [outByte ilOpPrefix, outByte ilPrefixOpUnaligned, outByte value]
  else outOnly []

end Pnet.Ilasm
