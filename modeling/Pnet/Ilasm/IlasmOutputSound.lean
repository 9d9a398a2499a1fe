import Pnet.Codegen.ILMachine
import Pnet.Ilasm.IlasmOutput
import Pnet.Image.Opcodes

/-! What the instructions that the assembler puts out do. The bytes are taken apart by the
opcode tables, and what they do is compared with what was asked for. -/
namespace Pnet.Ilasm
open Pnet.Codegen Pnet.Engine Pnet.Image Pnet.Lib

/-! ### Instructions -/

inductive AsmInsn where
  | ldarg (n : Nat)
  | ldarga (n : Nat)
  | starg (n : Nat)
  | ldloc (n : Nat)
  | ldloca (n : Nat)
  | stloc (n : Nat)
  | ldcI4 (x : ILInt32)
  | ldcI8 (x : ILInt64)
  | conv (t : ConvType)
  | unaligned (n : Nat)
  | no (n : Nat)
  | annDead (n : Nat)
  | annRef (n : Nat)
deriving DecidableEq, Repr

/-- The instructions without a prefix byte, of those that the assembler puts out here. -/
def mainInsn (opcode : Nat) (operand : List ILUInt8) : Option AsmInsn :=
  let n := Radix.value operand
  if 0x02 ≤ opcode ∧ opcode < 0x06 then some (.ldarg (opcode - 0x02))
  else if 0x06 ≤ opcode ∧ opcode < 0x0A then some (.ldloc (opcode - 0x06))
  else if 0x0A ≤ opcode ∧ opcode < 0x0E then some (.stloc (opcode - 0x0A))
  else if 0x16 ≤ opcode ∧ opcode < 0x1F then some (.ldcI4 (BitVec.ofNat 32 (opcode - 0x16)))
  else
    match opcode with
    | 0x0E => some (.ldarg n)
    | 0x0F => some (.ldarga n)
    | 0x10 => some (.starg n)
    | 0x11 => some (.ldloc n)
    | 0x12 => some (.ldloca n)
    | 0x13 => some (.stloc n)
    | 0x15 => some (.ldcI4 (-1))
    | 0x1F => some (.ldcI4 ((BitVec.ofNat 8 n).signExtend 32))
    | 0x20 => some (.ldcI4 (BitVec.ofNat 32 n))
    | 0x21 => some (.ldcI8 (BitVec.ofNat 64 n))
    | 0x6A => some (.conv .i8)
    | 0x6E => some (.conv .u8)
    | 0xC9 => some (.annDead n)
    | 0xCE => some (.annRef n)
    | _ => none

def prefixInsn (opcode : Nat) (operand : List ILUInt8) : Option AsmInsn :=
  let n := Radix.value operand
  match opcode with
  | 0x09 => some (.ldarg n)
  | 0x0A => some (.ldarga n)
  | 0x0B => some (.starg n)
  | 0x0C => some (.ldloc n)
  | 0x0D => some (.ldloca n)
  | 0x0E => some (.stloc n)
  | 0x12 => some (.unaligned n)
  | 0x19 => some (.no n)
  | _ => none

/-- An instruction with so many bytes of operand, and what is behind it. -/
def withOperand (info : ILOpcodeInfo) (opcodeSize : Nat)
    (insn : List ILUInt8 → Option AsmInsn) (rest : List ILUInt8) :
    Option (AsmInsn × List ILUInt8) :=
  let size := info.size.toNat - opcodeSize
  if info.args = .invalid ∨ rest.length < size then none
  else (insn (rest.take size)).map fun insn => (insn, rest.drop size)

/-- The first instruction of the code. -/
def nextInsn : List ILUInt8 → Option (AsmInsn × List ILUInt8)
  | [] => none
  | opcode :: rest =>
    if opcode = 0xFE then
      match rest with
      | [] => none
      | opcode :: rest =>
        withOperand (prefixOpcodeInfo opcode) 2 (prefixInsn opcode.toNat) rest
    else withOperand (mainOpcodeInfo opcode) 1 (mainInsn opcode.toNat) rest

def decodeInsns : Nat → List ILUInt8 → Option (List AsmInsn)
  | _, [] => some []
  | 0, _ :: _ => none
  | fuel + 1, code =>
    (nextInsn code).bind fun (insn, rest) => (decodeInsns fuel rest).map (insn :: ·)

/-- All of the code is instructions. -/
def decode (code : List ILUInt8) : Option (List AsmInsn) := decodeInsns code.length code

/-! ### What the instructions do -/

/-- The address of a variable is told by the variable. -/
inductive AsmValue (native : NativeInt) where
  | value (x : StackValue native)
  | argAddress (n : Nat)
  | localAddress (n : Nat)

/-- `prefixes` wait for the next instruction, `annotations` are those that the code has made. -/
structure AsmState (native : NativeInt) where
  args : Nat → AsmValue native
  locals : Nat → AsmValue native
  stack : List (AsmValue native)
  prefixes : List AsmInsn
  annotations : List AsmInsn

variable {native : NativeInt}

def AsmState.push (state : AsmState native) (x : AsmValue native) : AsmState native :=
  { state with stack := x :: state.stack, prefixes := [] }

def AsmInsn.exec (insn : AsmInsn) (state : AsmState native) : Option (AsmState native) :=
  match insn, state.stack with
  | ldarg n, _ => some (state.push (state.args n))
  | ldarga n, _ => some (state.push (.argAddress n))
  | ldloc n, _ => some (state.push (state.locals n))
  | ldloca n, _ => some (state.push (.localAddress n))
  | ldcI4 x, _ => some (state.push (.value (.int32 x)))
  | ldcI8 x, _ => some (state.push (.value (.int64 x)))
  | starg n, x :: stack =>
    some { state with args := Function.update state.args n x, stack := stack, prefixes := [] }
  | stloc n, x :: stack =>
    some { state with locals := Function.update state.locals n x, stack := stack, prefixes := [] }
  | conv t, .value x :: stack =>
    (t.conv x).map fun x => { state with stack := .value x :: stack, prefixes := [] }
  | unaligned n, _ => some { state with prefixes := unaligned n :: state.prefixes }
  | no n, _ => some { state with prefixes := no n :: state.prefixes }
  | annDead n, _ => some { state with annotations := annDead n :: state.annotations }
  | annRef n, _ => some { state with annotations := annRef n :: state.annotations }
  | _, _ => none

def runInsns : List AsmInsn → AsmState native → Option (AsmState native)
  | [], state => some state
  | insn :: insns, state => (insn.exec state).bind (runInsns insns)

/-! ### What should hold -/

/-- No variable has a negative number. -/
def requestedAccess (access : Nat → AsmInsn) (num : ILInt64) : Option AsmInsn :=
  if 0 ≤ num.toInt then some (access num.toInt.toNat) else none

/-- What is asked for with an opcode that takes the number of a variable. -/
def requestedVar (opcode : ILInt32) (num : ILInt64) : Option AsmInsn :=
  let insn access := requestedAccess access num
  if opcode = ilOpAnnDead then insn .annDead
  else if opcode = ilOpAnnRefS then insn .annRef
  else if opcode = ilPrefixOpLdarg ∨ opcode = ilOpLdargS then insn .ldarg
  else if opcode = ilPrefixOpLdarga ∨ opcode = ilOpLdargaS then insn .ldarga
  else if opcode = ilPrefixOpLdloc ∨ opcode = ilOpLdlocS then insn .ldloc
  else if opcode = ilPrefixOpLdloca ∨ opcode = ilOpLdlocaS then insn .ldloca
  else if opcode = ilPrefixOpStarg ∨ opcode = ilOpStargS then insn .starg
  else if opcode = ilPrefixOpStloc ∨ opcode = ilOpStlocS then insn .stloc
  else none

/-- What is asked for with an opcode that takes an integer; there is none when the integer is
not of the type of the operand. -/
def requestedInt (opcode : ILInt32) (value : ILInt64) : Option AsmInsn :=
  if opcode = ilOpLdcI4 ∨ opcode = ilOpLdcI4S then
    if -0x80000000 ≤ value.toInt ∧ value.toInt ≤ 0xFFFFFFFF then some (.ldcI4 (value.setWidth 32))
    else none
  else if opcode = ilOpLdcI8 then some (.ldcI8 value)
  else if 0 ≤ value.toInt ∧ value.toInt < 256 then
    if opcode = ilPrefixOpUnaligned then some (.unaligned value.toNat)
    else if opcode = ilPrefixOpNo then some (.no value.toNat)
    else none
  else none

/-- An error is reported, or the code does what is asked for and nothing else. -/
def Encodes (requested : Option AsmInsn) (out : AsmOut) : Prop :=
  out.errors = true ∨ ∃ insn insns, requested = some insn ∧ decode out.bytes = some insns ∧
    ∀ (native : NativeInt) (state : AsmState native), runInsns insns state = insn.exec state

/-- The opcodes with which `ILAsmOutVar` is called. -/
def varOpcodes : List ILInt32 :=
  [ilOpAnnDead, ilOpAnnRefS, ilPrefixOpLdarg, ilOpLdargS, ilPrefixOpLdarga, ilOpLdargaS,
    ilPrefixOpLdloc, ilOpLdlocS, ilPrefixOpLdloca, ilOpLdlocaS, ilPrefixOpStarg, ilOpStargS,
    ilPrefixOpStloc, ilOpStlocS]

/-- The opcodes with which `ILAsmOutInt` is called. -/
def intOpcodes : List ILInt32 :=
  [ilOpLdcI4, ilOpLdcI4S, ilOpLdcI8, ilPrefixOpUnaligned, ilPrefixOpNo]

/-- The short forms of the instructions that have a long one. -/
def shortVarOpcodes : List ILInt32 :=
  [ilOpLdargS, ilOpLdargaS, ilOpLdlocS, ilOpLdlocaS, ilOpStargS, ilOpStlocS]

/-! ### Operands -/

theorem emod_mul {a b : Int} (ha : 0 < a) (hb : 0 < b) (x : Int) :
    x % (a * b) = x % a + a * (x / a % b) := by
  have hlow := Int.emod_nonneg x ha.ne'
  have hlow' := Int.emod_lt_of_pos x ha
  have hhigh := Int.emod_nonneg (x / a) hb.ne'
  have hhigh' := Int.emod_lt_of_pos (x / a) hb
  have hx : x = x % a + a * (x / a % b) + a * b * (x / a / b) := by
    have h₁ := Int.emod_add_mul_ediv x a
    have h₂ := Int.emod_add_mul_ediv (x / a) b
    calc x = x % a + a * (x / a) := h₁.symm
      _ = x % a + a * (x / a % b + b * (x / a / b)) := by rw [h₂]
      _ = x % a + a * (x / a % b) + a * b * (x / a / b) := by ring
  conv_lhs => rw [hx]
  rw [Int.add_mul_emod_self_left]
  apply Int.emod_eq_of_lt
  · positivity
  · calc x % a + a * (x / a % b) < a + a * (x / a % b) := Int.add_lt_add_right hlow' _
      _ = a * (x / a % b + 1) := by ring
      _ ≤ a * b := Int.mul_le_mul_of_nonneg_left hhigh' ha.le

theorem toNat_outByte (num : ILInt64) : ((outByte num).toNat : Int) = num.toInt % 2 ^ 8 := by
  have hlt := num.isLt
  rw [outByte, BitVec.toNat_setWidth, BitVec.toInt_eq_toNat_cond]
  split_ifs <;> omega

/-- The bytes are those of the number, least significant byte first. -/
theorem value_outBytes (size : Nat) (num : ILInt64) :
    (Radix.value (outBytes size num) : Int) = num.toInt % 2 ^ (8 * size) := by
  induction size generalizing num with
  | zero =>
    rw [Nat.mul_zero, Int.pow_zero, Int.emod_one]
    rfl
  | succ size ih =>
    have hpow : (2 : Int) ^ (8 * (size + 1)) = 2 ^ 8 * 2 ^ (8 * size) := by
      rw [Nat.mul_succ, Nat.add_comm, Int.pow_add]
    rw [outBytes, Radix.value_cons, hpow, emod_mul (by decide) (by positivity), ← toNat_outByte]
    push_cast
    rw [ih, BitVec.toInt_sshiftRight, Int.shiftRight_eq_div_pow]
    rfl

/-! ### Variables -/

/-- What the forms of an instruction with the number of a variable decode to; a form that there
is not has the opcode zero. -/
structure VarForms (access : Nat → AsmInsn) (lopcode sopcode topcode : ILInt32) : Prop where
  long : ∀ b0 b1 : ILUInt8, decode (outPrefix lopcode ++ [outByte lopcode, b0, b1]) =
    some [access (Radix.value [b0, b1])]
  short : sopcode ≠ 0 → ∀ b : ILUInt8,
    decode (outPrefix sopcode ++ [outByte sopcode, b]) = some [access (Radix.value [b])]
  tiny : topcode ≠ 0 → ∀ n < 4,
    decode [outByte (topcode.signExtend 64 + BitVec.ofNat 64 n)] = some [access n]

theorem ldarg_forms : VarForms .ldarg ilPrefixOpLdarg ilOpLdargS ilOpLdarg0 where
  long _ _ := rfl
  short _ _ := rfl
  tiny _ := by decide

theorem ldarga_forms : VarForms .ldarga ilPrefixOpLdarga ilOpLdargaS 0 where
  long _ _ := rfl
  short _ _ := rfl
  tiny h := absurd rfl h

theorem ldloc_forms : VarForms .ldloc ilPrefixOpLdloc ilOpLdlocS ilOpLdloc0 where
  long _ _ := rfl
  short _ _ := rfl
  tiny _ := by decide

theorem ldloca_forms : VarForms .ldloca ilPrefixOpLdloca ilOpLdlocaS 0 where
  long _ _ := rfl
  short _ _ := rfl
  tiny h := absurd rfl h

theorem starg_forms : VarForms .starg ilPrefixOpStarg ilOpStargS 0 where
  long _ _ := rfl
  short _ _ := rfl
  tiny h := absurd rfl h

theorem stloc_forms : VarForms .stloc ilPrefixOpStloc ilOpStlocS ilOpStloc0 where
  long _ _ := rfl
  short _ _ := rfl
  tiny _ := by decide

theorem annDead_forms : VarForms .annDead ilOpAnnDead 0 0 where
  long _ _ := rfl
  short h := absurd rfl h
  tiny h := absurd rfl h

/-- Code that is the one instruction that is asked for. -/
theorem encodes_of_decode {insn : AsmInsn} {out : AsmOut} (h : decode out.bytes = some [insn]) :
    Encodes (some insn) out := by
  refine .inr ⟨insn, [insn], rfl, h, fun native state => ?_⟩
  simp [runInsns]

theorem encodes_error {requested : Option AsmInsn} : Encodes requested largeArgError := .inl rfl

section Var

variable {access : Nat → AsmInsn} {lopcode sopcode topcode : ILInt32}
  (forms : VarForms access lopcode sopcode topcode) (short : Bool) {num : ILInt64}

theorem value_outBytes_of_lt (size : Nat) (hnonneg : 0 ≤ num.toInt)
    (hlt : num.toInt < 2 ^ (8 * size)) : Radix.value (outBytes size num) = num.toInt.toNat := by
  have hvalue := value_outBytes size num
  rw [Int.emod_eq_of_lt hnonneg hlt] at hvalue
  omega

theorem ofNat_toNat_toInt (hnonneg : 0 ≤ num.toInt) : BitVec.ofNat 64 num.toInt.toNat = num := by
  have hlt := num.isLt
  apply BitVec.eq_of_toNat_eq
  rw [BitVec.toNat_ofNat]
  rw [BitVec.toInt_eq_toNat_cond] at hnonneg ⊢
  split_ifs at hnonneg ⊢ <;> omega

include forms

theorem VarForms.encodes_tiny (htiny : topcode ≠ 0) (hnonneg : 0 ≤ num.toInt)
    (hlt : num.toInt < 4) : Encodes (requestedAccess access num)
      (outOnly [outByte (topcode.signExtend 64 + num)]) := by
  rw [requestedAccess, if_pos hnonneg]
  have hdecode := forms.tiny htiny num.toInt.toNat (by omega)
  rw [ofNat_toNat_toInt hnonneg] at hdecode
  exact encodes_of_decode hdecode

theorem VarForms.encodes_short (hshort : sopcode ≠ 0) (hnonneg : 0 ≤ num.toInt)
    (hlt : num.toInt < 256) : Encodes (requestedAccess access num)
      (outOnly (outPrefix sopcode ++ [outByte sopcode, outByte num])) := by
  rw [requestedAccess, if_pos hnonneg, ← value_outBytes_of_lt 1 hnonneg hlt]
  exact encodes_of_decode (forms.short hshort _)

theorem VarForms.encodes_long (hnonneg : 0 ≤ num.toInt) (hlt : num.toInt < 65536) :
    Encodes (requestedAccess access num)
      (outOnly (outPrefix lopcode ++ outByte lopcode :: outBytes 2 num)) := by
  rw [requestedAccess, if_pos hnonneg, ← value_outBytes_of_lt 2 hnonneg hlt]
  exact encodes_of_decode (forms.long _ _)

/-- Asked for the long form, the number is encoded whatever it is. -/
theorem VarForms.encodes_outLongVar :
    Encodes (requestedAccess access num) (outLongVar short lopcode sopcode topcode num) := by
  unfold outLongVar
  split_ifs with hsmall htiny hlarge
  · exact forms.encodes_tiny htiny.1 hsmall.2.2.1 htiny.2
  · exact forms.encodes_short hsmall.2.1 hsmall.2.2.1 hsmall.2.2.2
  · exact forms.encodes_long hlarge.1 hlarge.2
  · exact encodes_error

omit forms in
/-- A prefix byte behind a prefix byte is no instruction. -/
theorem not_encodes_prefixed_twice (hlong : 0x0100 ≤ lopcode.toInt) {requested : Option AsmInsn}
    {rest : List ILUInt8} {messages : List String} :
    ¬ Encodes requested ⟨outPrefix lopcode ++ outByte ilOpPrefix :: rest, messages, false⟩ := by
  rintro (herrors | ⟨insn, insns, -, hdecode, -⟩)
  · cases herrors
  · have hnone : decode (outPrefix lopcode ++ outByte ilOpPrefix :: rest) = none := by
      rw [outPrefix, if_pos hlong]
      rfl
    rw [hnone] at hdecode
    cases hdecode

/-- Asked for the short form, a number that does not fit it gets the prefix byte twice. -/
theorem VarForms.encodes_outShortVar_iff (hshort : sopcode ≠ 0) (hlong : 0x0100 ≤ lopcode.toInt) :
    Encodes (requestedAccess access num) (outShortVar short lopcode sopcode topcode num) ↔
      ¬ (256 ≤ num.toInt ∧ num.toInt < 65536) := by
  unfold outShortVar
  split_ifs with htiny hsmall hlarge hwarn
  · exact iff_of_true (forms.encodes_tiny htiny.2.1 htiny.2.2.1 htiny.2.2.2) (by omega)
  · exact iff_of_true (forms.encodes_short hshort hsmall.1 hsmall.2) (by omega)
  · exact iff_of_false (not_encodes_prefixed_twice hlong) (by omega)
  · exact iff_of_false (not_encodes_prefixed_twice hlong) (by omega)
  · exact iff_of_true encodes_error (by omega)

end Var

/-- `ann.ref.s` is not among the cases of `ILAsmOutVar`. -/
theorem not_encodes_annRef (short : Bool) (num : ILInt64) :
    ¬ Encodes (requestedVar ilOpAnnRefS num) (ilAsmOutVar short ilOpAnnRefS num) := by
  rintro (herrors | ⟨insn, insns, hinsn, hdecode, hrun⟩)
  · cases herrors
  · change requestedAccess .annRef num = some insn at hinsn
    obtain rfl := Option.some.inj hdecode
    unfold requestedAccess at hinsn
    split_ifs at hinsn
    obtain rfl := Option.some.inj hinsn
    have hsame := hrun .int32 ⟨fun _ => .argAddress 0, fun _ => .argAddress 0, [], [], []⟩
    cases hsame

theorem encodes_ilAsmOutVar_iff (short : Bool) {opcode : ILInt32} (hopcode : opcode ∈ varOpcodes)
    (num : ILInt64) : Encodes (requestedVar opcode num) (ilAsmOutVar short opcode num) ↔
      opcode ≠ ilOpAnnRefS ∧
      ¬ (opcode ∈ shortVarOpcodes ∧ 256 ≤ num.toInt ∧ num.toInt < 65536) := by
  have hlong : ∀ {op : ILInt32} {p : Prop}, op ≠ ilOpAnnRefS → op ∉ shortVarOpcodes → p →
      (p ↔ op ≠ ilOpAnnRefS ∧
        ¬ (op ∈ shortVarOpcodes ∧ 256 ≤ num.toInt ∧ num.toInt < 65536)) :=
    fun hcase hmem hp => iff_of_true hp ⟨hcase, fun h => hmem h.1⟩
  have hshort : ∀ {op : ILInt32} {p : Prop}, op ≠ ilOpAnnRefS → op ∈ shortVarOpcodes →
      (p ↔ ¬ (256 ≤ num.toInt ∧ num.toInt < 65536)) →
      (p ↔ op ≠ ilOpAnnRefS ∧
        ¬ (op ∈ shortVarOpcodes ∧ 256 ≤ num.toInt ∧ num.toInt < 65536)) := by
    intro op p hcase hmem hp
    rw [hp, and_iff_right hcase, and_iff_right hmem]
  simp only [varOpcodes, List.mem_cons, List.not_mem_nil, or_false] at hopcode
  obtain rfl | rfl | rfl | rfl | rfl | rfl | rfl | rfl | rfl | rfl | rfl | rfl | rfl | rfl := hopcode
  · exact hlong (by decide) (by decide) (annDead_forms.encodes_outLongVar short)
  · exact iff_of_false (not_encodes_annRef short num) fun h => h.1 rfl
  · exact hlong (by decide) (by decide) (ldarg_forms.encodes_outLongVar short)
  · exact hshort (by decide) (by decide)
      (ldarg_forms.encodes_outShortVar_iff short (by decide) (by decide))
  · exact hlong (by decide) (by decide) (ldarga_forms.encodes_outLongVar short)
  · exact hshort (by decide) (by decide)
      (ldarga_forms.encodes_outShortVar_iff short (by decide) (by decide))
  · exact hlong (by decide) (by decide) (ldloc_forms.encodes_outLongVar short)
  · exact hshort (by decide) (by decide)
      (ldloc_forms.encodes_outShortVar_iff short (by decide) (by decide))
  · exact hlong (by decide) (by decide) (ldloca_forms.encodes_outLongVar short)
  · exact hshort (by decide) (by decide)
      (ldloca_forms.encodes_outShortVar_iff short (by decide) (by decide))
  · exact hlong (by decide) (by decide) (starg_forms.encodes_outLongVar short)
  · exact hshort (by decide) (by decide)
      (starg_forms.encodes_outShortVar_iff short (by decide) (by decide))
  · exact hlong (by decide) (by decide) (stloc_forms.encodes_outLongVar short)
  · exact hshort (by decide) (by decide)
      (stloc_forms.encodes_outShortVar_iff short (by decide) (by decide))

/-! ### Integers -/

section Int

variable {value : ILInt64}

theorem setWidth32_eq (value : ILInt64) :
    BitVec.ofNat 32 (Radix.value (outBytes 4 value)) = value.setWidth 32 := by
  have hvalue := value_outBytes 4 value
  apply BitVec.eq_of_toNat_eq
  rw [BitVec.toNat_ofNat, BitVec.toNat_setWidth]
  rw [BitVec.toInt_eq_toNat_cond] at hvalue
  split_ifs at hvalue <;> omega

theorem ofNat64_eq (value : ILInt64) :
    BitVec.ofNat 64 (Radix.value (outBytes 8 value)) = value := by
  have hvalue := value_outBytes 8 value
  have hlt := value.isLt
  apply BitVec.eq_of_toNat_eq
  rw [BitVec.toNat_ofNat]
  rw [BitVec.toInt_eq_toNat_cond] at hvalue
  split_ifs at hvalue <;> omega

theorem toInt_setWidth32 (hlow : -2 ^ 31 ≤ value.toInt) (hhigh : value.toInt < 2 ^ 31) :
    (value.setWidth 32).toInt = value.toInt := by
  have h₁ := BitVec.toInt_eq_toNat_cond value
  have h₂ := BitVec.toInt_eq_toNat_cond (value.setWidth 32)
  rw [BitVec.toNat_setWidth] at h₂
  split_ifs at h₁ h₂ <;> omega

theorem signExtend_byte (hlow : -128 ≤ value.toInt) (hhigh : value.toInt ≤ 127) :
    (BitVec.ofNat 8 (Radix.value (outBytes 1 value))).signExtend 32 = value.setWidth 32 := by
  have hvalue := value_outBytes 1 value
  have hbyte := BitVec.toInt_eq_toNat_cond (BitVec.ofNat 8 (Radix.value (outBytes 1 value)))
  apply BitVec.eq_of_toInt_eq
  rw [BitVec.toInt_signExtend_of_le (by decide), toInt_setWidth32 (by omega) (by omega), hbyte,
    BitVec.toNat_ofNat]
  split_ifs <;> omega

theorem decode_ldcI4 (value : ILInt64) :
    decode (outByte ilOpLdcI4 :: outBytes 4 value) = some [.ldcI4 (value.setWidth 32)] := by
  rw [← setWidth32_eq]
  rfl

theorem decode_ldcI4_conv (value : ILInt64) :
    decode (outByte ilOpLdcI4 :: outBytes 4 value ++ [outByte ilOpConvI8]) =
      some [.ldcI4 (value.setWidth 32), .conv .i8] := by
  rw [← setWidth32_eq]
  rfl

theorem decode_ldcI4_convUn (value : ILInt64) :
    decode (outByte ilOpLdcI4 :: outBytes 4 value ++ [outByte ilOpConvU8]) =
      some [.ldcI4 (value.setWidth 32), .conv .u8] := by
  rw [← setWidth32_eq]
  rfl

theorem decode_ldcI8 (value : ILInt64) :
    decode (outByte ilOpLdcI8 :: outBytes 8 value) = some [.ldcI8 value] := by
  conv_rhs => rw [← ofNat64_eq value]
  rfl

theorem decode_ldcI4S (hlow : -128 ≤ value.toInt) (hhigh : value.toInt ≤ 127) :
    decode [outByte ilOpLdcI4S, outByte value] = some [.ldcI4 (value.setWidth 32)] := by
  rw [← signExtend_byte hlow hhigh]
  rfl

/-- The opcodes of the constants up to eight. -/
theorem tiny_ldcI4 : ∀ n ≤ 8, decode [outByte (ilOpLdcI40.signExtend 64 + BitVec.ofNat 64 n)] =
    some [.ldcI4 ((BitVec.ofNat 64 n).setWidth 32)] := by decide

theorem tiny_ldcI4_conv : ∀ n ≤ 8,
    decode [outByte (ilOpLdcI40.signExtend 64 + BitVec.ofNat 64 n), outByte ilOpConvI8] =
      some [.ldcI4 ((BitVec.ofNat 64 n).setWidth 32), .conv .i8] := by decide

theorem run_ldcI4_conv (hlow : -2 ^ 31 ≤ value.toInt) (hhigh : value.toInt < 2 ^ 31)
    (state : AsmState native) : runInsns [.ldcI4 (value.setWidth 32), .conv .i8] state =
      AsmInsn.exec (.ldcI8 value) state := by
  have hvalue : BitVec.ofInt 64 (value.setWidth 32).toInt = value := by
    rw [toInt_setWidth32 hlow hhigh, BitVec.ofInt_toInt]
  have hconv : ConvType.conv .i8 (.int32 (value.setWidth 32) : StackValue native) =
      some (.int64 value) := congrArg (fun x => some (StackValue.int64 x)) hvalue
  simp [runInsns, AsmInsn.exec, AsmState.push, hconv]

theorem run_ldcI4_convUn (hlow : 0 ≤ value.toInt) (hhigh : value.toInt < 2 ^ 32)
    (state : AsmState native) : runInsns [.ldcI4 (value.setWidth 32), .conv .u8] state =
      AsmInsn.exec (.ldcI8 value) state := by
  have hvalue : BitVec.ofInt 64 ((value.setWidth 32).toNat : Int) = value := by
    have hnat := BitVec.toInt_eq_toNat_cond value
    apply BitVec.eq_of_toNat_eq
    rw [BitVec.ofInt_natCast, BitVec.toNat_ofNat, BitVec.toNat_setWidth]
    split_ifs at hnat <;> omega
  have hconv : ConvType.conv .u8 (.int32 (value.setWidth 32) : StackValue native) =
      some (.int64 value) := congrArg (fun x => some (StackValue.int64 x)) hvalue
  simp [runInsns, AsmInsn.exec, AsmState.push, hconv]

theorem encodes_of_run {insn : AsmInsn} (insns : List AsmInsn) {bytes : List ILUInt8}
    (hdecode : decode bytes = some insns) (hrun : ∀ (native : NativeInt) (state : AsmState native),
      runInsns insns state = insn.exec state) : Encodes (some insn) (outOnly bytes) :=
  .inr ⟨insn, insns, rfl, hdecode, hrun⟩

theorem encodes_ldcI4 (short : Bool) {opcode : ILInt32}
    (hopcode : opcode = ilOpLdcI4 ∨ opcode = ilOpLdcI4S) (value : ILInt64) :
    Encodes (requestedInt opcode value) (ilAsmOutInt short opcode value) := by
  unfold requestedInt ilAsmOutInt
  rw [if_pos hopcode, if_pos hopcode]
  by_cases htiny : short = true ∧ -1 ≤ value.toInt ∧ value.toInt ≤ 8
  · rw [if_pos htiny, if_pos (by omega)]
    by_cases hminus : value = -1
    · rw [if_pos hminus, hminus]
      exact encodes_of_decode rfl
    · rw [if_neg hminus]
      have hnonneg : 0 ≤ value.toInt := by
        by_contra hneg
        exact hminus (BitVec.eq_of_toInt_eq (show value.toInt = -1 by omega))
      have hdecode := tiny_ldcI4 value.toInt.toNat (by omega)
      rw [ofNat_toNat_toInt hnonneg] at hdecode
      exact encodes_of_decode hdecode
  · rw [if_neg htiny]
    by_cases hbyte : (short = true ∨ opcode = ilOpLdcI4S) ∧ -128 ≤ value.toInt ∧ value.toInt ≤ 127
    · rw [if_pos hbyte, if_pos (by omega)]
      exact encodes_of_decode (decode_ldcI4S hbyte.2.1 hbyte.2.2)
    · rw [if_neg hbyte]
      by_cases hfits : -0x80000000 ≤ value.toInt ∧ value.toInt ≤ 0xFFFFFFFF
      · rw [if_pos hfits, if_pos hfits]
        exact encodes_of_decode (decode_ldcI4 value)
      · rw [if_neg hfits, if_neg hfits]
        exact encodes_error

theorem encodes_ldcI8 (short : Bool) (value : ILInt64) :
    Encodes (requestedInt ilOpLdcI8 value) (ilAsmOutInt short ilOpLdcI8 value) := by
  have hrequested : requestedInt ilOpLdcI8 value = some (.ldcI8 value) := rfl
  have hwide : Encodes (some (.ldcI8 value)) (outOnly (outByte ilOpLdcI8 :: outBytes 8 value)) :=
    encodes_of_decode (decode_ldcI8 value)
  rw [hrequested, ilAsmOutInt, if_neg (by decide), if_pos rfl]
  by_cases hshort : short = true
  · rw [if_pos hshort]
    by_cases hminus : value = -1
    · rw [if_pos hminus, hminus]
      exact encodes_of_run [.ldcI4 (-1), .conv .i8] rfl
        fun native state => @run_ldcI4_conv native (-1) (by decide) (by decide) state
    rw [if_neg hminus]
    by_cases htiny : 0 ≤ value.toInt ∧ value.toInt ≤ 8
    · rw [if_pos htiny]
      have hdecode := tiny_ldcI4_conv value.toInt.toNat (by omega)
      rw [ofNat_toNat_toInt htiny.1] at hdecode
      exact encodes_of_run _ hdecode fun native state => run_ldcI4_conv (by omega) (by omega) state
    rw [if_neg htiny]
    by_cases hsigned : -0x80000000 ≤ value.toInt ∧ value.toInt ≤ 0x7FFFFFFF
    · rw [if_pos hsigned]
      exact encodes_of_run _ (decode_ldcI4_conv value) fun native state =>
        run_ldcI4_conv (by omega) (by omega) state
    rw [if_neg hsigned]
    by_cases hunsigned : 0 ≤ value.toInt ∧ value.toInt ≤ 0xFFFFFFFF
    · rw [if_pos hunsigned]
      exact encodes_of_run _ (decode_ldcI4_convUn value) fun native state =>
        run_ldcI4_convUn (by omega) (by omega) state
    · rw [if_neg hunsigned]
      exact hwide
  · rw [if_neg hshort]
    exact hwide

/-- The operand of `unaligned.` is cut down to a byte without a word. -/
theorem encodes_unaligned_iff (short : Bool) (value : ILInt64) :
    Encodes (requestedInt ilPrefixOpUnaligned value)
      (ilAsmOutInt short ilPrefixOpUnaligned value) ↔ 0 ≤ value.toInt ∧ value.toInt < 256 := by
  have hout : ilAsmOutInt short ilPrefixOpUnaligned value =
      outOnly [outByte ilOpPrefix, outByte ilPrefixOpUnaligned, outByte value] := rfl
  have hrequested : requestedInt ilPrefixOpUnaligned value =
      if 0 ≤ value.toInt ∧ value.toInt < 256 then some (.unaligned value.toNat) else none := rfl
  rw [hout, hrequested]
  split_ifs with hfits
  · apply iff_of_true _ hfits
    have hbyte : Radix.value (outBytes 1 value) = value.toNat := by
      have hnat := BitVec.toInt_eq_toNat_cond value
      rw [value_outBytes_of_lt 1 hfits.1 hfits.2]
      split_ifs at hnat <;> omega
    rw [← hbyte]
    exact encodes_of_decode rfl
  · apply iff_of_false _ hfits
    rintro (herrors | ⟨insn, insns, hinsn, -⟩)
    · cases herrors
    · cases hinsn

end Int

/-- `no.` is not among the cases of `ILAsmOutInt`. -/
theorem not_encodes_no (short : Bool) (value : ILInt64) :
    ¬ Encodes (requestedInt ilPrefixOpNo value) (ilAsmOutInt short ilPrefixOpNo value) := by
  rintro (herrors | ⟨insn, insns, hinsn, hdecode, hrun⟩)
  · cases herrors
  · change (if 0 ≤ value.toInt ∧ value.toInt < 256 then some (AsmInsn.no value.toNat) else none) =
      some insn at hinsn
    obtain rfl := Option.some.inj hdecode
    split_ifs at hinsn
    obtain rfl := Option.some.inj hinsn
    have hsame := hrun .int32 ⟨fun _ => .argAddress 0, fun _ => .argAddress 0, [], [], []⟩
    cases hsame

theorem encodes_ilAsmOutInt_iff (short : Bool) {opcode : ILInt32} (hopcode : opcode ∈ intOpcodes)
    (value : ILInt64) : Encodes (requestedInt opcode value) (ilAsmOutInt short opcode value) ↔
      opcode ≠ ilPrefixOpNo ∧
      ¬ (opcode = ilPrefixOpUnaligned ∧ ¬ (0 ≤ value.toInt ∧ value.toInt < 256)) := by
  simp only [intOpcodes, List.mem_cons, List.not_mem_nil, or_false] at hopcode
  obtain rfl | rfl | rfl | rfl | rfl := hopcode
  · exact iff_of_true (encodes_ldcI4 short (.inl rfl) value)
      ⟨by decide, fun h => absurd h.1 (by decide)⟩
  · exact iff_of_true (encodes_ldcI4 short (.inr rfl) value)
      ⟨by decide, fun h => absurd h.1 (by decide)⟩
  · exact iff_of_true (encodes_ldcI8 short value) ⟨by decide, fun h => absurd h.1 (by decide)⟩
  · have hne : ilPrefixOpUnaligned ≠ ilPrefixOpNo := by decide
    rw [encodes_unaligned_iff, and_iff_right hne, and_iff_right rfl, not_not]
  · exact iff_of_false (not_encodes_no short value) fun h => h.1 rfl

/-! ### All operands -/

/-- Of the instructions that have a case, those are encoded wrongly that ask for the short form
with a number between 256 and 65535, and `unaligned.` with what is no byte. -/
theorem ilasm_operand_encoded_iff (ilAsmShortInsns : Bool) (operand : ILInt64) :
    (∀ opcode ∈ varOpcodes, Encodes (requestedVar opcode operand)
        (ilAsmOutVar ilAsmShortInsns opcode operand) ↔
      opcode ≠ ilOpAnnRefS ∧
        ¬ (opcode ∈ shortVarOpcodes ∧ 256 ≤ operand.toInt ∧ operand.toInt < 65536)) ∧
    ∀ opcode ∈ intOpcodes, Encodes (requestedInt opcode operand)
        (ilAsmOutInt ilAsmShortInsns opcode operand) ↔
      opcode ≠ ilPrefixOpNo ∧
        ¬ (opcode = ilPrefixOpUnaligned ∧ ¬ (0 ≤ operand.toInt ∧ operand.toInt < 256)) :=
  ⟨fun _ hopcode => encodes_ilAsmOutVar_iff ilAsmShortInsns hopcode operand,
    fun _ hopcode => encodes_ilAsmOutInt_iff ilAsmShortInsns hopcode operand⟩

/-- The long form of `ldloc` for the variable 300, and `ldc.i8` for a constant of 32 bits. -/
theorem ilasm_operand_encoded_iff_sample :
    Encodes (some (.ldloc 300)) (ilAsmOutVar true ilPrefixOpLdloc 300) ∧
    Encodes (some (.ldcI8 70000)) (ilAsmOutInt true ilOpLdcI8 70000) := by
  constructor
  · exact ((ilasm_operand_encoded_iff true 300).1 ilPrefixOpLdloc (by decide)).2
      ⟨by decide, fun h => absurd h.1 (by decide)⟩
  · exact ((ilasm_operand_encoded_iff true 70000).2 ilOpLdcI8 (by decide)).2
      ⟨by decide, fun h => absurd h.1 (by decide)⟩

/-- `ldarg.s 256` comes out as a prefix byte and a prefixed instruction behind it. -/
theorem not_encodes_ldargS :
    ilAsmOutVar true ilOpLdargS 256 = outOnly [0xFE, 0xFE, 0x09, 0x00, 0x01] ∧
    ¬ Encodes (requestedVar ilOpLdargS 256) (ilAsmOutVar true ilOpLdargS 256) := by
  refine ⟨by decide, ?_⟩
  rintro (herrors | ⟨insn, insns, -, hdecode, -⟩)
  · cases herrors
  · cases hdecode

end Pnet.Ilasm
