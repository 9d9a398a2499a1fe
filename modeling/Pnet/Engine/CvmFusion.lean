import Pnet.Engine.CvmCompareSound
import Pnet.Engine.VerifyScan

/-! Comparisons that are followed by a logical negation: `engine/verify_branch.c` looks for the
negation and has the coder invert the test. The inverted test takes values that have no order the
other way: `clt; not` is meant to do what `bge` does. -/
namespace Pnet.Engine

/-! ### Code -/

section Exec

variable {native : NativeInt}

/-- The instructions of a comparison, and those of a negation besides. -/
inductive LogicInsn where
  | compare (insn : CVMInsn)
  | ldcI4_1
  | ixor
deriving DecidableEq, Repr

def LogicInsn.exec : LogicInsn → CVMStack native → Option (CVMStack native)
  | compare insn, stack => insn.exec stack
  | ldcI4_1, stack => some (.intValue 1 :: stack)
  | ixor, value2 :: value1 :: stack => do
    return .intValue ((← value1.toIntValue) ^^^ (← value2.toIntValue)) :: stack
  | ixor, _ => none

def execLogic (insns : List LogicInsn) (stack : CVMStack native) : Option (CVMStack native) :=
  insns.foldlM (fun stack insn => insn.exec stack) stack

end Exec

/-! ### The verifier -/

def ilOpLdcI4_0 : ILUInt8 := 0x16
def ilOpLdcI4_1 : ILUInt8 := 0x17
def ilOpXor : ILUInt8 := 0x61
def ilPrefixOpCeq : ILUInt8 := 0x01

/-- `IL_PREFIX_OP_CEQ` to `IL_PREFIX_OP_CLT_UN` -/
def ILCompareOp.ofCode (byte : ILUInt8) : Option ILCompareOp :=
  match byte with
  | 0x01 => some ceq
  | 0x02 => some cgt
  | 0x03 => some cgtUn
  | 0x04 => some clt
  | 0x05 => some cltUn
  | _ => none

/-- The operand types of a comparison. Only a test for equality may be unsafe. -/
def compareAccepted (unsafeAllowed : Bool) (opcode : ILCompareOp) (type1 type2 : ILEngineType) :
    Bool :=
  match opcode with
  | .ceq =>
    if unsafeAllowed then unsafeEqualityMatrix type1 type2 else binaryEqualityMatrix type1 type2
  | .cgtUn => (type1 = .o ∧ type2 = .o) || binaryCompareMatrix type1 type2
  | _ => binaryCompareMatrix type1 type2

/-- What the verifier makes of an instruction: the code that is put out, the bytes that it is done
with, and the types on the stack, top first. -/
structure VerifiedInsn where
  code : List LogicInsn
  insnSize : Nat
  stack : List ILEngineType
deriving DecidableEq

section Verify

variable (native : NativeInt) (unsafeAllowed : Bool) (body : ILMethodCode) (jumpMask : JumpMask)

/-- The size of a comparison at `pc` with the negation behind it, if there is one. -/
def negatedSize (pc : Nat) : Option Nat :=
  let offset : ILUInt32 := BitVec.ofNat 32 pc
  -- "ldc.i4.1;xor" is what cscc generates
  if body.byteAt (pc + 2) = ilOpLdcI4_1 ∧ body.byteAt (pc + 3) = ilOpXor ∧
      ¬ isJumpTarget jumpMask (offset + 2) ∧ ¬ isJumpTarget jumpMask (offset + 3) then some 4
  else if body.byteAt (pc + 2) = ilOpLdcI4_0 ∧ body.byteAt (pc + 3) = ilOpPrefix ∧
      body.byteAt (pc + 4) = ilPrefixOpCeq ∧
      ¬ isJumpTarget jumpMask (offset + 2) ∧ ¬ isJumpTarget jumpMask (offset + 3) then some 5
  else none

/-- One instruction. The operands of `xor` are those of a negation, two 32-bit numbers. -/
def verifyInsn (pc : Nat) (stack : List ILEngineType) : Option VerifiedInsn :=
  if body.byteAt pc = ilOpLdcI4_0 then some ⟨[.compare .ldcI4_0], 1, .i4 :: stack⟩
  else if body.byteAt pc = ilOpLdcI4_1 then some ⟨[.ldcI4_1], 1, .i4 :: stack⟩
  else if body.byteAt pc = ilOpXor then
    match stack with
    | .i4 :: .i4 :: stack => some ⟨[.ixor], 1, .i4 :: stack⟩
    | _ => none
  else if body.byteAt pc = ilOpPrefix then
    match ILCompareOp.ofCode (body.byteAt (pc + 1)), stack with
    | some opcode, type2 :: type1 :: stack =>
      if compareAccepted unsafeAllowed opcode type1 type2 then
        match negatedSize body jumpMask pc with
        | some size =>
          some ⟨(cvmCoderCompare native opcode type1 type2 true).map .compare, size, .i4 :: stack⟩
        | none =>
          some ⟨(cvmCoderCompare native opcode type1 type2 false).map .compare, 2, .i4 :: stack⟩
      else none
    | _, _ => none
  else none

/-- A number of instructions, one after the other. -/
def verifyInsns : Nat → Nat → List ILEngineType → Option VerifiedInsn
  | 0, _, stack => some ⟨[], 0, stack⟩
  | num + 1, pc, stack => do
    let insn ← verifyInsn native unsafeAllowed body jumpMask pc stack
    let rest ← verifyInsns num (pc + insn.insnSize) insn.stack
    return ⟨insn.code ++ rest.code, insn.insnSize + rest.insnSize, rest.stack⟩

end Verify

/-! ### What should hold -/

section Spec

variable {native : NativeInt}

/-- Is it a signed relation of values that have no order? -/
def unordered (opcode : ILCompareOp) (value1 value2 : CVMValue native) : Bool :=
  match opcode, value1, value2 with
  | .cgt, .float a, .float b | .clt, .float a, .float b =>
    a.ilNativeFloatIsNaN || b.ilNativeFloatIsNaN
  | _, _, _ => false

/-- The verifier puts out one piece of code for the comparison at `pc` and its negation, and
another one where every offset is jumped to, so that nothing is folded. -/
structure Folds (native : NativeInt) (unsafeAllowed : Bool) (body : ILMethodCode)
    (jumpMask : JumpMask) (pc : Nat) (stack : List ILEngineType)
    (folded separate : List LogicInsn) (insnSize : Nat) (stack' : List ILEngineType) : Prop where
  folded : verifyInsn native unsafeAllowed body jumpMask pc stack =
    some ⟨folded, insnSize, stack'⟩
  separate : verifyInsns native unsafeAllowed body (fun _ => true) 3 pc stack =
    some ⟨separate, insnSize, stack'⟩

/-- Both pieces of code leave the same value. -/
def FoldAgrees (folded separate : List LogicInsn) (value1 value2 : CVMValue native) : Prop :=
  ∀ rest, ∃ result : ILInt32,
    execLogic folded (value2 :: value1 :: rest) = some (.intValue result :: rest) ∧
    execLogic separate (value2 :: value1 :: rest) = some (.intValue result :: rest)

end Spec

/-! ### Inverted tests -/

namespace ILCompareOp

def finvopcode : ILCompareOp → CVMInsn
  | ceq | clt | cltUn => .fcmpl
  | cgt | cgtUn => .fcmpg

def setinvopcode : ILCompareOp → CVMInsn
  | ceq => .setne
  | cgt | cgtUn => .setle
  | clt | cltUn => .setge

end ILCompareOp

section Invert

variable {native : NativeInt} (opcode : ILCompareOp) {type1 type2 type : ILEngineType}
  {rest : CVMStack native} {compared : Bool}

theorem cvmCoderCompare_invert (type1 type2 : ILEngineType) (invertTest : Bool) :
    cvmCoderCompare native opcode type1 type2 invertTest =
      (adjustMixedBinary native false type1 type2).1 ++
        outputCondCompare opcode.icompare opcode.lopcode opcode.fopcode opcode.finvopcode
          opcode.setopcode opcode.setinvopcode (adjustMixedBinary native false type1 type2).2.1
            invertTest := by
  cases opcode <;> rfl

/-- The two tests of a result are opposite. -/
theorem exec_setinvopcode (result : ILInt32) :
    opcode.setinvopcode.exec (.intValue result :: rest) =
      some (.intValue (if opcode.sign result then 0 else 1) :: rest) := by
  have hopposite : opcode.setinvopcode.exec (.intValue result :: rest) =
      some (.intValue (if !opcode.sign result then 1 else 0) :: rest) := by
    cases opcode with
    | ceq => simp [ILCompareOp.setinvopcode, ILCompareOp.sign, CVMInsn.exec, setTop,
        CVMValue.toIntValue]
    | cgt | cgtUn | clt | cltUn =>
      simp [ILCompareOp.setinvopcode, ILCompareOp.sign, CVMInsn.exec, setTop,
        CVMValue.toIntValue, BitVec.sle_eq_not_slt]
  rw [hopposite]
  cases opcode.sign result <;> rfl

theorem setinvopcode_of_setopcode {stack : CVMStack native}
    (h : opcode.setopcode.exec stack = some (.intValue (if compared then 1 else 0) :: rest)) :
    opcode.setinvopcode.exec stack = some (.intValue (if compared then 0 else 1) :: rest) := by
  cases stack with
  | nil => cases opcode <;> cases h
  | cons value stack =>
    cases value with
    | long | float | ptrValue => cases opcode <;> cases h
    | intValue result =>
      rw [exec_setopcode] at h
      obtain ⟨hresult, rfl⟩ := List.cons.inj (Option.some.inj h)
      have hsign : opcode.sign result = compared := by
        cases hs : opcode.sign result <;> cases compared <;> simp [hs] at hresult <;> rfl
      rw [exec_setinvopcode, hsign]

/-- Types other than floats are compared by the same instruction for both tests. -/
theorem exec_invert (htype : type ≠ .f) {stack : CVMStack native}
    (h : execInsns (outputCondCompare opcode.icompare opcode.lopcode opcode.fopcode
      opcode.finvopcode opcode.setopcode opcode.setinvopcode type false) stack =
        some (.intValue (if compared then 1 else 0) :: rest)) :
    execInsns (outputCondCompare opcode.icompare opcode.lopcode opcode.fopcode
      opcode.finvopcode opcode.setopcode opcode.setinvopcode type true) stack =
        some (.intValue (if compared then 0 else 1) :: rest) := by
  obtain ⟨compare, hcompare⟩ : ∃ compare, ∀ invertTest, outputCondCompare opcode.icompare
      opcode.lopcode opcode.fopcode opcode.finvopcode opcode.setopcode opcode.setinvopcode type
        invertTest = compare ++ [if invertTest then opcode.setinvopcode else opcode.setopcode] := by
    cases type with
    | f => exact absurd rfl htype
    | _ => exact ⟨_, fun _ => rfl⟩
  rw [hcompare, execInsns_append] at h ⊢
  cases hstack : execInsns compare stack with
  | none =>
    rw [hstack] at h
    cases h
  | some stack' =>
    rw [hstack] at h
    simp only [Option.bind_some, execInsns_cons, Bool.false_eq_true, if_false, if_true] at h ⊢
    have hset : opcode.setopcode.exec stack' =
        some (.intValue (if compared then 1 else 0) :: rest) := by
      cases hexec : opcode.setopcode.exec stack' with
      | none =>
        rw [hexec] at h
        cases h
      | some stack'' =>
        rw [hexec] at h
        exact h
    rw [setinvopcode_of_setopcode opcode hset]
    rfl

/-- What `finvopcode` leaves for values that have no order. -/
def invNanResult : ILInt32 :=
  match opcode with
  | .ceq | .clt | .cltUn => -1
  | .cgt | .cgtUn => 1

/-- The signed relations are taken to hold of values that have no order. -/
theorem sign_fCmp_inv (a b : ILNativeFloat) : opcode.sign (fCmp a b (invNanResult opcode)) =
    (opcode.floats a b || @unordered native opcode (.float a) (.float b)) := by
  cases hnan : a.ilNativeFloatIsNaN || b.ilNativeFloatIsNaN with
  | true =>
    simp only [fCmp, ILCompareOp.floats, hnan, if_true]
    cases opcode <;> simp [unordered, hnan, ILCompareOp.isUnsigned, ILCompareOp.sign, invNanResult]
  | false =>
    have hsame : fCmp a b (invNanResult opcode) = fCmp a b (nanResult opcode) := by
      simp only [fCmp, hnan, Bool.false_eq_true, if_false]
    have hordered : @unordered native opcode (.float a) (.float b) = false := by
      cases opcode <;> first | rfl | exact hnan
    rw [hsame, sign_fCmp, hordered, Bool.or_false]

theorem exec_invert_f (a b : ILNativeFloat) :
    execInsns (outputCondCompare opcode.icompare opcode.lopcode opcode.fopcode
      opcode.finvopcode opcode.setopcode opcode.setinvopcode .f true)
        (.float b :: .float a :: rest) =
      some (.intValue (if opcode.floats a b || @unordered native opcode (.float a) (.float b)
        then 0 else 1) :: rest) := by
  have hcompare : opcode.finvopcode.exec (.float b :: .float a :: rest) =
      some (.intValue (fCmp a b (invNanResult opcode)) :: rest) := by
    cases opcode <;> rfl
  have hcode : outputCondCompare opcode.icompare opcode.lopcode opcode.fopcode opcode.finvopcode
      opcode.setopcode opcode.setinvopcode .f true =
        [opcode.finvopcode, opcode.setinvopcode] := rfl
  rw [hcode, execInsns_cons, hcompare, Option.bind_some, execInsns_cons, exec_setinvopcode,
    ← sign_fCmp_inv]
  rfl

theorem types_of_adjusted_f {unsafeAllowed : Bool}
    (haccepted : relationAccepted unsafeAllowed opcode type1 type2 = true)
    (htype : (adjustMixedBinary native false type1 type2).2.1 = .f) :
    type1 = .f ∧ type2 = .f := by
  cases type1 <;> cases type2 <;>
    first
    | exact ⟨rfl, rfl⟩
    | (cases native <;> cases htype; done)
    | (cases opcode <;> cases unsafeAllowed <;> cases haccepted)

theorem unordered_of_not_f {value1 value2 : CVMValue native} (h1 : OfType type1 value1)
    (h2 : OfType type2 value2)
    (htype : (adjustMixedBinary native false type1 type2).2.1 ≠ .f) :
    unordered opcode value1 value2 = false := by
  cases h1 with
  | f a =>
    cases h2 with
    | f b =>
      refine absurd ?_ htype
      cases native <;> rfl
    | _ => cases opcode <;> rfl
  | _ => cases opcode <;> rfl

/-- Both tests of one comparison. -/
theorem compare_both {unsafeAllowed : Bool} {value1 value2 : CVMValue native}
    (haccepted : relationAccepted unsafeAllowed opcode type1 type2 = true)
    (h1 : OfType type1 value1) (h2 : OfType type2 value2) :
    ∃ compared, ilCompare false opcode value1 value2 = some compared ∧ ∀ rest,
      execInsns (cvmCoderCompare native opcode type1 type2 false) (value2 :: value1 :: rest) =
        some (.intValue (if compared then 1 else 0) :: rest) ∧
      execInsns (cvmCoderCompare native opcode type1 type2 true) (value2 :: value1 :: rest) =
        some (.intValue (if compared || unordered opcode value1 value2 then 0 else 1) ::
          rest) := by
  obtain ⟨taken, compared, hruns⟩ := runs_of_accepted haccepted h1 h2
  refine ⟨compared, hruns.signExtended, fun rest => ⟨hruns.compare rest, ?_⟩⟩
  by_cases htype : (adjustMixedBinary native false type1 type2).2.1 = .f
  · obtain ⟨rfl, rfl⟩ := types_of_adjusted_f opcode haccepted htype
    cases h1 with
    | f a =>
      cases h2 with
      | f b =>
        have hcompared : opcode.floats a b = compared := Option.some.inj hruns.signExtended
        have hadjust : adjustMixedBinary native false .f .f = ([], .f, .f) := by
          cases native <;> rfl
        rw [cvmCoderCompare_invert, hadjust, ← hcompared]
        exact exec_invert_f opcode a b
  · have hcompare := hruns.compare rest
    rw [cvmCoderCompare_invert, execInsns_append] at hcompare ⊢
    rw [unordered_of_not_f opcode h1 h2 htype, Bool.or_false]
    cases hstack : execInsns (adjustMixedBinary native false type1 type2).1
        (value2 :: value1 :: rest) with
    | none =>
      rw [hstack] at hcompare
      cases hcompare
    | some stack =>
      rw [hstack] at hcompare
      exact exec_invert opcode htype hcompare

end Invert

/-! ### Code that is put out for a negated comparison -/

section Fold

variable {native : NativeInt} {unsafeAllowed : Bool} {body : ILMethodCode} {jumpMask : JumpMask}
  {pc size : Nat} {opcode : ILCompareOp} {type1 type2 : ILEngineType} {types : List ILEngineType}

theorem relationAccepted_of_compareAccepted
    (h : compareAccepted unsafeAllowed opcode type1 type2 = true) :
    relationAccepted unsafeAllowed opcode type1 type2 = true := by
  cases unsafeAllowed <;> cases opcode <;> cases type1 <;> cases type2 <;>
    first
    | rfl
    | cases h

theorem execLogic_append (insns insns' : List LogicInsn) (stack : CVMStack native) :
    execLogic (insns ++ insns') stack = (execLogic insns stack).bind (execLogic insns') := by
  simp only [execLogic, List.foldlM_append]
  rfl

theorem execLogic_compare (insns : List CVMInsn) (stack : CVMStack native) :
    execLogic (insns.map .compare) stack = execInsns insns stack := by
  simp only [execLogic, execInsns, List.foldlM_map]
  rfl

theorem verifyInsn_compare (hescape : body.byteAt pc = ilOpPrefix)
    (hopcode : ILCompareOp.ofCode (body.byteAt (pc + 1)) = some opcode)
    (haccepted : compareAccepted unsafeAllowed opcode type1 type2 = true) :
    verifyInsn native unsafeAllowed body jumpMask pc (type2 :: type1 :: types) =
      match negatedSize body jumpMask pc with
      | some size =>
        some ⟨(cvmCoderCompare native opcode type1 type2 true).map .compare, size, .i4 :: types⟩
      | none =>
        some ⟨(cvmCoderCompare native opcode type1 type2 false).map .compare, 2, .i4 :: types⟩ := by
  unfold verifyInsn
  rw [hescape, if_neg (by decide), if_neg (by decide), if_neg (by decide), if_pos rfl, hopcode]
  exact if_pos haccepted

/-- Nothing is folded where every offset is jumped to. -/
theorem negatedSize_all (body : ILMethodCode) (pc : Nat) :
    negatedSize body (fun _ => true) pc = none := by
  simp [negatedSize, isJumpTarget]

/-- The code of a negation. -/
def Negates (code : List LogicInsn) : Prop :=
  ∀ (native : NativeInt) (truth : Bool) (rest : CVMStack native),
    execLogic code (.intValue (if truth then 1 else 0) :: rest) =
      some (.intValue (if truth then 0 else 1) :: rest)

theorem negates_xor : Negates [.ldcI4_1, .ixor] := by
  intro native truth rest
  cases truth <;> rfl

theorem negates_ceq : Negates [.compare .ldcI4_0, .compare .icmp, .compare .seteq] := by
  intro native truth rest
  cases truth <;> rfl

theorem verifyInsns_succ {num : Nat} {insn : VerifiedInsn}
    (h : verifyInsn native unsafeAllowed body jumpMask pc types = some insn) :
    verifyInsns native unsafeAllowed body jumpMask (num + 1) pc types =
      (verifyInsns native unsafeAllowed body jumpMask num (pc + insn.insnSize) insn.stack).map
        fun rest => ⟨insn.code ++ rest.code, insn.insnSize + rest.insnSize, rest.stack⟩ := by
  rw [verifyInsns, h]
  exact Option.map_eq_bind.symm

/-- The instructions that are folded are a negation. -/
theorem verifyInsns_negation (hsize : negatedSize body jumpMask pc = some size) :
    ∃ code insnSize, Negates code ∧ size = 2 + insnSize ∧
      verifyInsns native unsafeAllowed body (fun _ => true) 2 (pc + 2) (.i4 :: types) =
        some ⟨code, insnSize, .i4 :: types⟩ := by
  unfold negatedSize at hsize
  dsimp only at hsize
  split_ifs at hsize with hxor hceq
  · obtain ⟨hone, hxor, -⟩ := hxor
    refine ⟨_, 2, negates_xor, (Option.some.inj hsize).symm, ?_⟩
    simp [verifyInsns, verifyInsn, hone, hxor, ilOpLdcI4_0, ilOpLdcI4_1, ilOpXor]
  · obtain ⟨hzero, hescape, hceq, -⟩ := hceq
    refine ⟨_, 3, negates_ceq, (Option.some.inj hsize).symm, ?_⟩
    have hcompare := @verifyInsn_compare native unsafeAllowed body (fun _ => true) (pc + 3) .ceq
      .i4 .i4 types hescape (by rw [hceq]; rfl) (by cases unsafeAllowed <;> rfl)
    have hcode : cvmCoderCompare native .ceq .i4 .i4 false = [.icmp, .seteq] := by
      cases native <;> rfl
    rw [negatedSize_all, hcode] at hcompare
    have hfirst : verifyInsn native unsafeAllowed body (fun _ => true) (pc + 2) (.i4 :: types) =
        some ⟨[.compare .ldcI4_0], 1, .i4 :: .i4 :: types⟩ := by
      unfold verifyInsn
      exact if_pos hzero
    exact (verifyInsns_succ hfirst).trans (congrArg (Option.map _) (verifyInsns_succ hcompare))

/-- Signed relations do not hold of values that have no order. -/
theorem compared_of_unordered {value1 value2 : CVMValue native} {compared : Bool}
    (hunordered : unordered opcode value1 value2 = true)
    (hil : ilCompare false opcode value1 value2 = some compared) : compared = false := by
  cases opcode with
  | ceq | cgtUn | cltUn => cases hunordered
  | cgt | clt =>
    cases value1 with
    | intValue | long | ptrValue => cases hunordered
    | float a =>
      cases value2 with
      | intValue | long | ptrValue => cases hunordered
      | float b =>
        obtain rfl := Option.some.inj hil
        exact if_pos hunordered

/-- A comparison that is folded with its negation leaves what the two leave one by one, but for
a signed relation of values that have no order: that is taken to hold, as a branch on the
opposite relation takes it, and 0 is left instead of 1. -/
theorem comparison_folds (hescape : body.byteAt pc = ilOpPrefix)
    (hopcode : ILCompareOp.ofCode (body.byteAt (pc + 1)) = some opcode)
    (haccepted : compareAccepted unsafeAllowed opcode type1 type2 = true)
    (hsize : negatedSize body jumpMask pc = some size)
    {value1 value2 : CVMValue native} (h1 : OfType type1 value1) (h2 : OfType type2 value2) :
    ∃ folded separate, Folds native unsafeAllowed body jumpMask pc (type2 :: type1 :: types)
        folded separate size (.i4 :: types) ∧
      (unordered opcode value1 value2 = false → FoldAgrees folded separate value1 value2) ∧
      (unordered opcode value1 value2 = true → ∀ rest,
        execLogic folded (value2 :: value1 :: rest) = some (.intValue 0 :: rest) ∧
        execLogic separate (value2 :: value1 :: rest) = some (.intValue 1 :: rest)) := by
  obtain ⟨compared, hil, hcompare⟩ :=
    compare_both opcode (relationAccepted_of_compareAccepted haccepted) h1 h2
  obtain ⟨code, insnSize, hnegates, rfl, hcode⟩ :=
    @verifyInsns_negation native unsafeAllowed body jumpMask pc size types hsize
  have hfolded (rest : CVMStack native) := (execLogic_compare _ _).trans (hcompare rest).2
  have hseparate (rest : CVMStack native) :
      execLogic ((cvmCoderCompare native opcode type1 type2 false).map .compare ++ code)
        (value2 :: value1 :: rest) = some (.intValue (if compared then 0 else 1) :: rest) := by
    rw [execLogic_append, execLogic_compare, (hcompare rest).1]
    exact hnegates native compared rest
  refine ⟨(cvmCoderCompare native opcode type1 type2 true).map .compare,
    (cvmCoderCompare native opcode type1 type2 false).map .compare ++ code, ⟨?_, ?_⟩, ?_, ?_⟩
  · rw [verifyInsn_compare hescape hopcode haccepted, hsize]
  · have hfirst := @verifyInsn_compare native unsafeAllowed body (fun _ => true) pc opcode type1
      type2 types hescape hopcode haccepted
    rw [negatedSize_all] at hfirst
    exact (verifyInsns_succ hfirst).trans (congrArg (Option.map _) hcode)
  · intro hordered rest
    rw [hordered, Bool.or_false] at hfolded
    exact ⟨_, hfolded rest, hseparate rest⟩
  · intro hunordered rest
    rw [hunordered, Bool.or_true] at hfolded
    obtain rfl := compared_of_unordered hunordered hil
    exact ⟨hfolded rest, hseparate rest⟩

/-- `clt; ldc.i4.1; xor` -/
def cltNot : ILMethodCode := ⟨[0xFE, 0x04, 0x17, 0x61], by decide⟩

/-- 1 is less than 2. -/
theorem comparison_folds_sample : ∃ folded separate,
    Folds .int32 false cltNot (fun _ => false) 0 [.i4, .i4] folded separate 4 [.i4] ∧
      @FoldAgrees .int32 folded separate (.intValue 1) (.intValue 2) := by
  obtain ⟨folded, separate, hfolds, hagree, -⟩ := @comparison_folds .int32 false cltNot
    (fun _ => false) 0 4 .clt .i4 .i4 [] rfl rfl rfl rfl _ _ (.i4 1) (.i4 2)
  exact ⟨folded, separate, hfolds, hagree rfl⟩

/-- But what is not a number is not less than 0. -/
theorem not_foldAgrees : ¬ ∃ folded separate,
    Folds .int32 false cltNot (fun _ => false) 0 [.f, .f] folded separate 4 [.i4] ∧
      @FoldAgrees .int32 folded separate (.float .nan) (.float (.finite 0)) := by
  rintro ⟨folded, separate, hfolds, hagree⟩
  obtain rfl := congrArg VerifiedInsn.code (Option.some.inj hfolds.folded)
  obtain rfl := congrArg VerifiedInsn.code (Option.some.inj hfolds.separate)
  obtain ⟨result, hfolded, hseparate⟩ := hagree []
  have hzero : result = 0 :=
    CVMValue.intValue.inj (List.cons.inj (Option.some.inj hfolded)).1.symm
  have hone : result = 1 :=
    CVMValue.intValue.inj (List.cons.inj (Option.some.inj hseparate)).1.symm
  exact absurd (hzero.symm.trans hone) (by decide)

end Fold

end Pnet.Engine
