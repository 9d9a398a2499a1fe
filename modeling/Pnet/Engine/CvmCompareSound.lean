import Pnet.Engine.CvmCompare

/-! Branches and comparisons of one relation. Both bring the operands to a common type and
agree there; they differ in how they widen a 32-bit operand that is mixed with a native
integer. -/
namespace Pnet.Engine

/-! ### What should hold -/

namespace ILCompareOp

/-- The branch with the relation of a comparison. -/
def branchOp : ILCompareOp → ILBranchOp
  | ceq => .beq
  | cgt => .bgt
  | cgtUn => .bgtUn
  | clt => .blt
  | cltUn => .bltUn

def isUnsigned : ILCompareOp → Bool
  | cgtUn | cltUn => true
  | _ => false

def ints {w : Nat} (opcode : ILCompareOp) (a b : BitVec w) : Bool :=
  match opcode with
  | ceq => a = b
  | cgt => b.slt a
  | cgtUn => b.ult a
  | clt => a.slt b
  | cltUn => a.ult b

/-- Addresses have no sign. -/
def ptrs {w : Nat} (opcode : ILCompareOp) (a b : BitVec w) : Bool :=
  match opcode with
  | ceq => a = b
  | cgt | cgtUn => b.ult a
  | clt | cltUn => a.ult b

/-- The unsigned relations hold of values that have no order. -/
def floats (opcode : ILCompareOp) (a b : ILNativeFloat) : Bool :=
  if a.ilNativeFloatIsNaN || b.ilNativeFloatIsNaN then opcode.isUnsigned
  else
    match opcode with
    | ceq => a = b
    | cgt | cgtUn => b.lt a
    | clt | cltUn => a.lt b

/-- How the IL instructions widen a 32-bit operand to a native integer: by its sign, or
where `zeroExtend` says so by zeros for the unsigned relations. -/
def widen (zeroExtend : Bool) (opcode : ILCompareOp) (a : ILInt32) : ILUInt64 :=
  if zeroExtend && opcode.isUnsigned then a.setWidth 64 else a.signExtend 64

end ILCompareOp

section Spec

variable {native : NativeInt}

/-- The relation as the IL instructions have it. -/
def ilCompare (zeroExtend : Bool) (opcode : ILCompareOp) :
    CVMValue native → CVMValue native → Option Bool
  | .intValue a, .intValue b => some (opcode.ints a b)
  | .long a, .long b => some (opcode.ints a b)
  | .intValue a, .long b => some (opcode.ints (opcode.widen zeroExtend a) b)
  | .long a, .intValue b => some (opcode.ints a (opcode.widen zeroExtend b))
  | .float a, .float b => some (opcode.floats a b)
  | value1, value2 => do return opcode.ptrs (← value1.toPtrValue) (← value2.toPtrValue)

/-- The values of a type. -/
inductive OfType : {native : NativeInt} → ILEngineType → CVMValue native → Prop where
  | i4 {native : NativeInt} (value : ILInt32) : @OfType native .i4 (.intValue value)
  | i8 {native : NativeInt} (value : ILUInt64) : @OfType native .i8 (.long value)
  | i32 (value : ILInt32) : @OfType .int32 .i (.intValue value)
  | i64 (value : ILUInt64) : @OfType .int64 .i (.long value)
  | f {native : NativeInt} (value : ILNativeFloat) : @OfType native .f (.float value)
  | m {native : NativeInt} (value : BitVec native.bits) : OfType .m (.ptrValue value)
  | o {native : NativeInt} (value : BitVec native.bits) : OfType .o (.ptrValue value)
  | t {native : NativeInt} (value : BitVec native.bits) : OfType .t (.ptrValue value)

def execBranchCode (code : BranchCode) (returnPc : BitVec native.bits) (stack : CVMStack native) :
    Option (Bool × CVMStack native) := do
  let stack ← execInsns code.1 stack
  let op ← code.2
  op.test returnPc stack

/-- The branch is taken when the comparison leaves a value other than zero, and both are
what the relation says. -/
def BranchCompareAgree (zeroExtend : Bool) (opcode : ILCompareOp) (type1 type2 : ILEngineType)
    (value1 value2 : CVMValue native) : Prop :=
  ∀ (returnPc : BitVec native.bits) (rest : CVMStack native), ∃ taken result,
    execBranchCode (cvmCoderBranch native opcode.branchOp type1 type2) returnPc
      (value2 :: value1 :: rest) = some (taken, rest) ∧
    execInsns (cvmCoderCompare native opcode type1 type2 false) (value2 :: value1 :: rest) =
      some (.intValue result :: rest) ∧
    (taken = true ↔ result ≠ 0) ∧ ilCompare zeroExtend opcode value1 value2 = some taken

/-- A 32-bit operand of an unsigned relation is mixed with a native integer of 64 bits that
lies between its two extensions (no number does for an operand that is not negative). -/
def Misread (opcode : ILCompareOp) (value1 value2 : CVMValue native) : Prop :=
  match opcode, value1, value2 with
  | .cgtUn, .intValue a, .long b | .cltUn, .long b, .intValue a =>
    a.setWidth 64 ≤ b ∧ b < a.signExtend 64
  | .cltUn, .intValue a, .long b | .cgtUn, .long b, .intValue a =>
    a.setWidth 64 < b ∧ b ≤ a.signExtend 64
  | _, _, _ => False

end Spec

/-! ### The opcodes of a relation -/

namespace ILCompareOp

def iopcode : ILCompareOp → BranchOp
  | ceq => .beq
  | cgt => .bgt
  | cgtUn => .bgtUn
  | clt => .blt
  | cltUn => .bltUn

/-- The branch on the result of a comparison. -/
def cmpopcode : ILCompareOp → BranchOp
  | ceq => .beq
  | cgt | cgtUn => .bgt
  | clt | cltUn => .blt

def icompare : ILCompareOp → CVMInsn
  | ceq | cgt | clt => .icmp
  | cgtUn | cltUn => .icmpUn

def lopcode : ILCompareOp → CVMInsn
  | ceq | cgt | clt => .lcmp
  | cgtUn | cltUn => .lcmpUn

def fopcode : ILCompareOp → CVMInsn
  | ceq | cgt | cltUn => .fcmpl
  | cgtUn | clt => .fcmpg

def setopcode : ILCompareOp → CVMInsn
  | ceq => .seteq
  | cgt | cgtUn => .setgt
  | clt | cltUn => .setlt

/-- The results of a comparison of which the relation holds. -/
def sign (opcode : ILCompareOp) (result : ILInt32) : Bool :=
  match opcode with
  | ceq => result = 0
  | cgt | cgtUn => (0 : ILInt32).slt result
  | clt | cltUn => result.slt 0

end ILCompareOp

section Common

variable {native : NativeInt} (opcode : ILCompareOp) (returnPc : BitVec native.bits)
  (rest : CVMStack native)

theorem cvmCoderBranch_eq (type1 type2 : ILEngineType) :
    cvmCoderBranch native opcode.branchOp type1 type2 = outputBinaryBranch native
      opcode.isUnsigned opcode.iopcode opcode.lopcode opcode.fopcode opcode.cmpopcode
        type1 type2 := by
  cases opcode <;> rfl

theorem cvmCoderCompare_eq (type1 type2 : ILEngineType) :
    cvmCoderCompare native opcode type1 type2 false =
      (adjustMixedBinary native false type1 type2).1 ++
        outputCondCompare opcode.icompare opcode.lopcode opcode.fopcode opcode.fopcode
          opcode.setopcode opcode.setopcode (adjustMixedBinary native false type1 type2).2.1
            false := by
  cases opcode <;> rfl

/-! Comparisons leave a number with the sign of the relation. -/

theorem sign_compareResult_ints {w : Nat} (a b : BitVec w) :
    opcode.sign (if opcode.isUnsigned then compareResult (a.ult b) (b.ult a)
      else compareResult (a.slt b) (b.slt a)) = opcode.ints a b := by
  have hsigned : a = b ↔ ¬ a.toInt < b.toInt ∧ ¬ b.toInt < a.toInt := by
    rw [← BitVec.toInt_inj]
    omega
  cases opcode with
  | ceq =>
    simp only [ILCompareOp.isUnsigned, Bool.false_eq_true, if_false, ILCompareOp.ints,
      compareResult, BitVec.slt_eq_decide, decide_eq_true_eq, hsigned]
    split_ifs <;> simp_all [ILCompareOp.sign]
  | cgt | clt =>
    simp only [ILCompareOp.isUnsigned, Bool.false_eq_true, if_false, ILCompareOp.ints,
      compareResult, BitVec.slt_eq_decide, decide_eq_true_eq]
    split_ifs <;> simp [ILCompareOp.sign] <;> omega
  | cgtUn | cltUn =>
    simp only [ILCompareOp.isUnsigned, if_true, ILCompareOp.ints,
      compareResult, BitVec.ult_eq_decide, decide_eq_true_eq]
    split_ifs <;> simp [ILCompareOp.sign] <;> omega

theorem sign_compareResult_ptrs {w : Nat} (a b : BitVec w) :
    opcode.sign (compareResult (a.ult b) (b.ult a)) = opcode.ptrs a b := by
  have hequal : a = b ↔ ¬ a.toNat < b.toNat ∧ ¬ b.toNat < a.toNat := by
    rw [← BitVec.toNat_inj]
    omega
  cases opcode with
  | ceq =>
    simp only [ILCompareOp.ptrs, compareResult, BitVec.ult_eq_decide, decide_eq_true_eq, hequal]
    split_ifs <;> simp_all [ILCompareOp.sign]
  | cgt | clt | cgtUn | cltUn =>
    simp only [ILCompareOp.ptrs, compareResult, BitVec.ult_eq_decide, decide_eq_true_eq]
    split_ifs <;> simp [ILCompareOp.sign] <;> omega

theorem eq_iff_not_lt {a b : ILNativeFloat} (ha : a.ilNativeFloatIsNaN = false)
    (hb : b.ilNativeFloatIsNaN = false) : a = b ↔ a.lt b = false ∧ b.lt a = false := by
  cases a with
  | nan => cases ha
  | negInfinity | posInfinity => cases b <;> simp_all [ILNativeFloat.lt, ILNativeFloat.ilNativeFloatIsNaN]
  | finite a =>
    cases b with
    | nan => cases hb
    | negInfinity | posInfinity => simp [ILNativeFloat.lt]
    | finite b =>
      simp only [ILNativeFloat.finite.injEq, ILNativeFloat.lt, decide_eq_false_iff_not, not_lt]
      exact le_antisymm_iff.trans and_comm

/-- What `fopcode` leaves for values that have no order. -/
def nanResult : ILInt32 :=
  match opcode with
  | .ceq | .cgt | .cltUn => -1
  | .cgtUn | .clt => 1

theorem lt_asymm {a b : ILNativeFloat} (h : a.lt b = true) : b.lt a = false := by
  cases a <;> cases b <;> simp_all [ILNativeFloat.lt, le_of_lt]

theorem sign_fCmp (a b : ILNativeFloat) :
    opcode.sign (fCmp a b (nanResult opcode)) = opcode.floats a b := by
  unfold fCmp ILCompareOp.floats
  cases hnan : a.ilNativeFloatIsNaN || b.ilNativeFloatIsNaN with
  | true => cases opcode <;> rfl
  | false =>
    obtain ⟨ha, hb⟩ := Bool.or_eq_false_iff.1 hnan
    have hequal := eq_iff_not_lt ha hb
    simp only [Bool.false_eq_true, if_false, compareResult]
    cases hless : a.lt b with
    | true =>
      have hgreater := lt_asymm hless
      rw [hless] at hequal
      cases opcode <;> simp [ILCompareOp.sign, hgreater, hequal]
    | false =>
      rw [hless] at hequal
      cases hgreater : b.lt a <;> rw [hgreater] at hequal <;>
        cases opcode <;> simp [ILCompareOp.sign, hequal]

/-! ### Operands of a common type -/

@[simp] theorem execInsns_nil (stack : CVMStack native) : execInsns [] stack = some stack := rfl

@[simp] theorem execInsns_cons (insn : CVMInsn) (insns : List CVMInsn) (stack : CVMStack native) :
    execInsns (insn :: insns) stack = (insn.exec stack).bind (execInsns insns) := rfl

theorem execInsns_append (insns insns' : List CVMInsn) (stack : CVMStack native) :
    execInsns (insns ++ insns') stack = (execInsns insns stack).bind (execInsns insns') := by
  simp only [execInsns, List.foldlM_append]
  rfl

theorem exec_setopcode (result : ILInt32) : opcode.setopcode.exec (.intValue result :: rest) =
    some (.intValue (if opcode.sign result then 1 else 0) :: rest) := by
  cases opcode <;> rfl

theorem test_cmpopcode (result : ILInt32) :
    opcode.cmpopcode.test returnPc (.intValue 0#32 :: .intValue result :: rest) =
      some (opcode.sign result, rest) := by
  cases opcode <;> rfl

theorem test_iopcode (a b : ILInt32) :
    opcode.iopcode.test returnPc (.intValue b :: .intValue a :: rest) =
      some (opcode.ints a b, rest) := by
  cases opcode <;> rfl

theorem exec_icompare (a b : ILInt32) : opcode.icompare.exec (.intValue b :: .intValue a :: rest) =
    some (.intValue (if opcode.isUnsigned then compareResult (a.ult b) (b.ult a)
      else compareResult (a.slt b) (b.slt a)) :: rest) := by
  cases opcode <;>
    simp [ILCompareOp.icompare, ILCompareOp.isUnsigned, CVMInsn.exec, compareTop,
      CVMValue.toIntValue]

@[simp] theorem exec_ldcI4_0 (stack : CVMStack native) :
    CVMInsn.ldcI4_0.exec stack = some (.intValue 0#32 :: stack) := rfl

theorem exec_lopcode (a b : ILUInt64) : opcode.lopcode.exec (.long b :: .long a :: rest) =
    some (.intValue (if opcode.isUnsigned then compareResult (a.ult b) (b.ult a)
      else compareResult (a.slt b) (b.slt a)) :: rest) := by
  cases opcode <;>
    simp [ILCompareOp.lopcode, ILCompareOp.isUnsigned, CVMInsn.exec, compareTop,
      CVMValue.toLong, lCmp, lUCmp]

theorem exec_fopcode (a b : ILNativeFloat) :
    opcode.fopcode.exec (.float b :: .float a :: rest) =
      some (.intValue (fCmp a b (nanResult opcode)) :: rest) := by
  cases opcode <;> rfl

/-- The code for operands that have a common type. -/
structure CommonRun (type : ILEngineType) (value1 value2 : CVMValue native) (taken : Bool) :
    Prop where
  branch : execBranchCode (outputCondBranch opcode.iopcode opcode.lopcode opcode.fopcode
    opcode.cmpopcode type) returnPc (value2 :: value1 :: rest) = some (taken, rest)
  compare : execInsns (outputCondCompare opcode.icompare opcode.lopcode opcode.fopcode
    opcode.fopcode opcode.setopcode opcode.setopcode type false) (value2 :: value1 :: rest) =
      some (.intValue (if taken then 1 else 0) :: rest)

theorem commonRun_i4 (a b : ILInt32) :
    CommonRun opcode returnPc rest .i4 (.intValue a) (.intValue b) (opcode.ints a b) where
  branch := test_iopcode ..
  compare := by
    simp [outputCondCompare, exec_icompare, exec_setopcode, sign_compareResult_ints]

theorem commonRun_i8 (a b : ILUInt64) :
    CommonRun opcode returnPc rest .i8 (.long a) (.long b) (opcode.ints a b) where
  branch := by
    simp [execBranchCode, outputCondBranch, exec_lopcode, test_cmpopcode,
      sign_compareResult_ints]
  compare := by
    simp [outputCondCompare, exec_lopcode, exec_setopcode, sign_compareResult_ints]

theorem commonRun_f (a b : ILNativeFloat) :
    CommonRun opcode returnPc rest .f (.float a) (.float b) (opcode.floats a b) where
  branch := by
    simp [execBranchCode, outputCondBranch, exec_fopcode, test_cmpopcode, sign_fCmp]
  compare := by
    simp [outputCondCompare, exec_fopcode, exec_setopcode, sign_fCmp]

theorem exec_pcmp {value1 value2 : CVMValue native} {a b : BitVec native.bits}
    (h1 : value1.toPtrValue = some a) (h2 : value2.toPtrValue = some b) :
    CVMInsn.pcmp.exec (value2 :: value1 :: rest) =
      some (.intValue (compareResult (a.ult b) (b.ult a)) :: rest) := by
  simp [CVMInsn.exec, compareTop, h1, h2]

/-- Pointers are compared by `pcmp`, but for equality. -/
theorem outputCondBranch_ptr {type : ILEngineType} (htype : type = .m ∨ type = .t ∨ type = .o) :
    outputCondBranch opcode.iopcode opcode.lopcode opcode.fopcode opcode.cmpopcode type =
      if opcode = .ceq then ([], some .brPeq) else ([.pcmp, .ldcI4_0], some opcode.cmpopcode) := by
  obtain rfl | rfl | rfl := htype <;> cases opcode <;> rfl

theorem outputCondCompare_ptr {type : ILEngineType} (htype : type = .m ∨ type = .t ∨ type = .o) :
    outputCondCompare opcode.icompare opcode.lopcode opcode.fopcode opcode.fopcode
      opcode.setopcode opcode.setopcode type false = [.pcmp, opcode.setopcode] := by
  obtain rfl | rfl | rfl := htype <;> rfl

theorem commonRun_ptr {type : ILEngineType} (htype : type = .m ∨ type = .t ∨ type = .o)
    {value1 value2 : CVMValue native} {a b : BitVec native.bits}
    (h1 : value1.toPtrValue = some a) (h2 : value2.toPtrValue = some b) :
    CommonRun opcode returnPc rest type value1 value2 (opcode.ptrs a b) where
  branch := by
    rw [outputCondBranch_ptr opcode htype]
    split_ifs with hceq
    · simp [execBranchCode, BranchOp.test, BranchOp.testPtrs, h1, h2, hceq, ILCompareOp.ptrs]
    · simp [execBranchCode, exec_pcmp rest h1 h2, test_cmpopcode, sign_compareResult_ptrs]
  compare := by
    rw [outputCondCompare_ptr opcode htype]
    simp [exec_pcmp rest h1 h2, exec_setopcode, sign_compareResult_ptrs]

end Common

/-! ### Operands of the accepted types -/

section Runs

variable {native : NativeInt} {opcode : ILCompareOp} {type1 type2 type type' : ILEngineType}
  {value1 value2 : CVMValue native} {taken compared : Bool}

/-- What the branch and the comparison make of two operands. -/
structure Runs (opcode : ILCompareOp) (type1 type2 : ILEngineType)
    (value1 value2 : CVMValue native) (taken compared : Bool) : Prop where
  branch : ∀ returnPc rest, execBranchCode (cvmCoderBranch native opcode.branchOp type1 type2)
    returnPc (value2 :: value1 :: rest) = some (taken, rest)
  compare : ∀ rest, execInsns (cvmCoderCompare native opcode type1 type2 false)
    (value2 :: value1 :: rest) = some (.intValue (if compared then 1 else 0) :: rest)
  zeroExtended : ilCompare true opcode value1 value2 = some taken
  signExtended : ilCompare false opcode value1 value2 = some compared
  misread : taken ≠ compared ↔ Misread opcode value1 value2

theorem branch_of_common {b1 b2 : CVMValue native}
    (hadjust : (adjustMixedBinary native opcode.isUnsigned type1 type2).2.1 = type)
    (hinsns : ∀ rest, execInsns (adjustMixedBinary native opcode.isUnsigned type1 type2).1
      (value2 :: value1 :: rest) = some (b2 :: b1 :: rest))
    (hrun : ∀ returnPc rest, CommonRun opcode returnPc rest type b1 b2 taken)
    (returnPc : BitVec native.bits) (rest : CVMStack native) :
    execBranchCode (cvmCoderBranch native opcode.branchOp type1 type2) returnPc
      (value2 :: value1 :: rest) = some (taken, rest) := by
  rw [cvmCoderBranch_eq]
  unfold outputBinaryBranch execBranchCode
  dsimp only
  rw [hadjust, execInsns_append, hinsns]
  exact (hrun returnPc rest).branch

theorem compare_of_common {c1 c2 : CVMValue native}
    (hadjust : (adjustMixedBinary native false type1 type2).2.1 = type)
    (hinsns : ∀ rest, execInsns (adjustMixedBinary native false type1 type2).1
      (value2 :: value1 :: rest) = some (c2 :: c1 :: rest))
    (hrun : ∀ returnPc rest, CommonRun opcode returnPc rest type c1 c2 compared)
    (rest : CVMStack native) : execInsns (cvmCoderCompare native opcode type1 type2 false)
      (value2 :: value1 :: rest) = some (.intValue (if compared then 1 else 0) :: rest) := by
  rw [cvmCoderCompare_eq, hadjust, execInsns_append, hinsns]
  exact (hrun 0 rest).compare

/-- Operands that are compared as they are. -/
theorem runs_plain (hadjust : ∀ isUnsigned,
      adjustMixedBinary native isUnsigned type1 type2 = ([], type, type'))
    (hrun : ∀ returnPc rest, CommonRun opcode returnPc rest type value1 value2 taken)
    (hil : ∀ zeroExtend, ilCompare zeroExtend opcode value1 value2 = some taken)
    (hmisread : ¬ Misread opcode value1 value2) :
    Runs opcode type1 type2 value1 value2 taken taken where
  branch := by
    apply branch_of_common _ _ hrun
    · rw [hadjust]
    · rw [hadjust]
      exact fun rest => rfl
  compare := by
    apply compare_of_common _ _ hrun
    · rw [hadjust]
    · rw [hadjust]
      exact fun rest => rfl
  zeroExtended := hil true
  signExtended := hil false
  misread := iff_of_false (fun hne => hne rfl) hmisread

def IsPtr (type : ILEngineType) : Prop := type = .m ∨ type = .t

theorem accepted_cases {unsafeAllowed : Bool}
    (h : relationAccepted unsafeAllowed opcode type1 type2 = true) :
    (type1 = type2 ∧ (type1 = .i4 ∨ type1 = .i8 ∨ type1 = .f ∨ type1 = .i ∨ type1 = .o)) ∨
      (type1 = .i4 ∧ type2 = .i) ∨ (type1 = .i ∧ type2 = .i4) ∨
      ((IsPtr type1 ∨ type1 = .i) ∧ IsPtr type2) ∨ (IsPtr type1 ∧ type2 = .i) := by
  cases type1 <;> cases type2 <;>
    first
    | (simp [IsPtr]; done)
    | (cases opcode <;> cases unsafeAllowed <;> cases h)

theorem toPtrValue_of {type : ILEngineType} {value : CVMValue native}
    (htype : IsPtr type ∨ type = .i) (h : OfType type value) :
    ∃ address, value.toPtrValue = some address := by
  cases h with
  | i4 | i8 | f | o => simp [IsPtr] at htype
  | i32 value | i64 value | m value | t value => exact ⟨value, rfl⟩

theorem ptrValue_of {type : ILEngineType} {value : CVMValue native} (htype : IsPtr type)
    (h : OfType type value) : ∃ address, value = .ptrValue address := by
  cases h with
  | i4 | i8 | f | o | i32 | i64 => simp [IsPtr] at htype
  | m value | t value => exact ⟨value, rfl⟩

theorem adjustMixedBinary_ptr (hptr : ((IsPtr type1 ∨ type1 = .i) ∧ IsPtr type2) ∨
      (IsPtr type1 ∧ type2 = .i)) (isUnsigned : Bool) :
    adjustMixedBinary native isUnsigned type1 type2 = ([], .m, .m) := by
  unfold IsPtr at hptr
  cases native <;> cases type1 <;> cases type2 <;>
    first
    | rfl
    | (simp at hptr)

theorem runs_ptr (hptr : ((IsPtr type1 ∨ type1 = .i) ∧ IsPtr type2) ∨ (IsPtr type1 ∧ type2 = .i))
    (h1 : OfType type1 value1) (h2 : OfType type2 value2) :
    ∃ taken compared, Runs opcode type1 type2 value1 value2 taken compared := by
  obtain ⟨a, ha⟩ : ∃ address, value1.toPtrValue = some address := by
    cases hptr with
    | inl h => exact toPtrValue_of h.1 h1
    | inr h => exact toPtrValue_of (.inl h.1) h1
  obtain ⟨b, hb⟩ : ∃ address, value2.toPtrValue = some address := by
    cases hptr with
    | inl h => exact toPtrValue_of (.inl h.2) h2
    | inr h => exact toPtrValue_of (.inr h.2) h2
  have hone : (∃ address, value1 = .ptrValue address) ∨ ∃ address, value2 = .ptrValue address := by
    cases hptr with
    | inl h => exact .inr (ptrValue_of h.2 h2)
    | inr h => exact .inl (ptrValue_of h.1 h1)
  refine ⟨opcode.ptrs a b, opcode.ptrs a b, runs_plain (adjustMixedBinary_ptr hptr)
    (fun returnPc rest => commonRun_ptr opcode returnPc rest (.inl rfl) ha hb) ?_ ?_⟩
  · intro zeroExtend
    have hil : ilCompare zeroExtend opcode value1 value2 =
        (do return opcode.ptrs (← value1.toPtrValue) (← value2.toPtrValue)) := by
      cases hone with
      | inl h =>
        obtain ⟨address, rfl⟩ := h
        rfl
      | inr h =>
        obtain ⟨address, rfl⟩ := h
        cases value1 <;> rfl
    rw [hil, ha, hb]
    rfl
  · cases hone with
    | inl h =>
      obtain ⟨address, rfl⟩ := h
      cases opcode <;> exact id
    | inr h =>
      obtain ⟨address, rfl⟩ := h
      cases opcode <;> cases value1 <;> exact id

/-! A 32-bit operand that is mixed with a native integer. -/

theorem setWidth_le_signExtend (a : ILInt32) :
    (a.setWidth 64).toNat ≤ (a.signExtend 64).toNat := by
  rw [BitVec.toNat_signExtend]
  exact Nat.le_add_right ..

/-- The two extensions of an operand give different results for what lies between them. -/
theorem ult_ne_left {low high b : ILUInt64} (h : low.toNat ≤ high.toNat) :
    b.ult low ≠ b.ult high ↔ low ≤ b ∧ b < high := by
  simp only [BitVec.ult_eq_decide, BitVec.le_def, BitVec.lt_def]
  by_cases hlow : b.toNat < low.toNat <;> by_cases hhigh : b.toNat < high.toNat <;>
    simp [hlow, hhigh] <;> omega

theorem ult_ne_right {low high b : ILUInt64} (h : low.toNat ≤ high.toNat) :
    low.ult b ≠ high.ult b ↔ low < b ∧ b ≤ high := by
  simp only [BitVec.ult_eq_decide, BitVec.le_def, BitVec.lt_def]
  by_cases hlow : low.toNat < b.toNat <;> by_cases hhigh : high.toNat < b.toNat <;>
    simp [hlow, hhigh] <;> omega

theorem ints_extend_left (a : ILInt32) (b : ILUInt64) :
    opcode.ints (opcode.widen true a) b ≠ opcode.ints (opcode.widen false a) b ↔
      @Misread .int64 opcode (.intValue a) (.long b) := by
  have hle := setWidth_le_signExtend a
  cases opcode with
  | ceq | cgt | clt => exact iff_of_false (fun hne => hne rfl) id
  | cgtUn => exact ult_ne_left hle
  | cltUn => exact ult_ne_right hle

theorem ints_extend_right (a : ILUInt64) (b : ILInt32) :
    opcode.ints a (opcode.widen true b) ≠ opcode.ints a (opcode.widen false b) ↔
      @Misread .int64 opcode (.long a) (.intValue b) := by
  have hle := setWidth_le_signExtend b
  cases opcode with
  | ceq | cgt | clt => exact iff_of_false (fun hne => hne rfl) id
  | cgtUn => exact ult_ne_right hle
  | cltUn => exact ult_ne_left hle

theorem runs_i4_i {value1 value2 : CVMValue native} (h1 : OfType .i4 value1)
    (h2 : OfType .i value2) :
    ∃ taken compared, Runs opcode .i4 .i value1 value2 taken compared := by
  cases h1 with
  | i4 a =>
    cases h2 with
    | i32 b =>
      refine ⟨opcode.ints a b, opcode.ints a b, runs_plain (fun _ => rfl)
        (fun returnPc rest => commonRun_i4 opcode returnPc rest a b) (fun _ => rfl) ?_⟩
      cases opcode <;> exact id
    | i64 b =>
      exact ⟨opcode.ints (opcode.widen true a) b, opcode.ints (opcode.widen false a) b, {
        branch := branch_of_common rfl
          (by intro rest; cases opcode <;> rfl)
          (fun returnPc rest => commonRun_i8 opcode returnPc rest _ b)
        compare := compare_of_common rfl
          (by intro rest; cases opcode <;> rfl)
          (fun returnPc rest => commonRun_i8 opcode returnPc rest _ b)
        zeroExtended := rfl
        signExtended := rfl
        misread := ints_extend_left a b }⟩

theorem runs_i_i4 {value1 value2 : CVMValue native} (h1 : OfType .i value1)
    (h2 : OfType .i4 value2) :
    ∃ taken compared, Runs opcode .i .i4 value1 value2 taken compared := by
  cases h2 with
  | i4 b =>
    cases h1 with
    | i32 a =>
      refine ⟨opcode.ints a b, opcode.ints a b, runs_plain (fun _ => rfl)
        (fun returnPc rest => commonRun_i4 opcode returnPc rest a b) (fun _ => rfl) ?_⟩
      cases opcode <;> exact id
    | i64 a =>
      exact ⟨opcode.ints a (opcode.widen true b), opcode.ints a (opcode.widen false b), {
        branch := branch_of_common rfl
          (by intro rest; cases opcode <;> rfl)
          (fun returnPc rest => commonRun_i8 opcode returnPc rest a _)
        compare := compare_of_common rfl
          (by intro rest; cases opcode <;> rfl)
          (fun returnPc rest => commonRun_i8 opcode returnPc rest a _)
        zeroExtended := rfl
        signExtended := rfl
        misread := ints_extend_right a b }⟩

theorem adjustMixedBinary_same (htype : type = .i4 ∨ type = .i8 ∨ type = .f ∨ type = .o)
    (isUnsigned : Bool) : adjustMixedBinary native isUnsigned type type = ([], type, type) := by
  obtain rfl | rfl | rfl | rfl := htype <;> cases native <;> rfl

/-- Operands of one type. -/
theorem runs_same (htype : type = .i4 ∨ type = .i8 ∨ type = .f ∨ type = .i ∨ type = .o)
    (h1 : OfType type value1) (h2 : OfType type value2) :
    ∃ taken compared, Runs opcode type type value1 value2 taken compared := by
  cases h1 with
  | i4 a =>
    cases h2 with
    | i4 b =>
      refine ⟨opcode.ints a b, opcode.ints a b, runs_plain (adjustMixedBinary_same (.inl rfl))
        (fun returnPc rest => commonRun_i4 opcode returnPc rest a b) (fun _ => rfl) ?_⟩
      cases opcode <;> exact id
  | i8 a =>
    cases h2 with
    | i8 b =>
      refine ⟨opcode.ints a b, opcode.ints a b,
        runs_plain (adjustMixedBinary_same (.inr (.inl rfl)))
        (fun returnPc rest => commonRun_i8 opcode returnPc rest a b) (fun _ => rfl) ?_⟩
      cases opcode <;> exact id
  | f a =>
    cases h2 with
    | f b =>
      refine ⟨opcode.floats a b, opcode.floats a b,
        runs_plain (adjustMixedBinary_same (.inr (.inr (.inl rfl))))
        (fun returnPc rest => commonRun_f opcode returnPc rest a b) (fun _ => rfl) ?_⟩
      cases opcode <;> exact id
  | o a =>
    cases h2 with
    | o b =>
      refine ⟨opcode.ptrs a b, opcode.ptrs a b,
        runs_plain (adjustMixedBinary_same (.inr (.inr (.inr rfl))))
        (fun returnPc rest => commonRun_ptr opcode returnPc rest (.inr (.inr rfl)) rfl rfl)
        (fun _ => rfl) ?_⟩
      cases opcode <;> exact id
  | i32 a =>
    cases h2 with
    | i32 b =>
      refine ⟨opcode.ints a b, opcode.ints a b, runs_plain (fun _ => rfl)
        (fun returnPc rest => commonRun_i4 opcode returnPc rest a b) (fun _ => rfl) ?_⟩
      cases opcode <;> exact id
  | i64 a =>
    cases h2 with
    | i64 b =>
      refine ⟨opcode.ints a b, opcode.ints a b, runs_plain (fun _ => rfl)
        (fun returnPc rest => commonRun_i8 opcode returnPc rest a b) (fun _ => rfl) ?_⟩
      cases opcode <;> exact id
  | m | t => simp at htype

theorem runs_of_accepted {unsafeAllowed : Bool}
    (h : relationAccepted unsafeAllowed opcode type1 type2 = true)
    (h1 : OfType type1 value1) (h2 : OfType type2 value2) :
    ∃ taken compared, Runs opcode type1 type2 value1 value2 taken compared := by
  obtain ⟨rfl, htype⟩ | ⟨rfl, rfl⟩ | ⟨rfl, rfl⟩ | hptr := accepted_cases h
  · exact runs_same htype h1 h2
  · exact runs_i4_i h1 h2
  · exact runs_i_i4 h1 h2
  · exact runs_ptr hptr h1 h2

/-- A branch and the comparison of its relation agree on operands that the coder accepts, if
and only if no 32-bit operand is misread. -/
theorem branchCompareAgree_iff (zeroExtend : Bool) {unsafeAllowed : Bool}
    (h : relationAccepted unsafeAllowed opcode type1 type2 = true)
    (h1 : OfType type1 value1) (h2 : OfType type2 value2) :
    BranchCompareAgree zeroExtend opcode type1 type2 value1 value2 ↔
      ¬ Misread opcode value1 value2 := by
  obtain ⟨taken, compared, hruns⟩ := runs_of_accepted h h1 h2
  rw [← hruns.misread, not_not]
  have hresult : ∀ result : Bool, (if result then (1 : ILInt32) else 0) ≠ 0 ↔ result = true := by
    decide
  constructor
  · intro hagree
    obtain ⟨taken', result, hbranch, hcompare, hiff, _⟩ := hagree 0 []
    rw [hruns.branch] at hbranch
    rw [hruns.compare] at hcompare
    obtain rfl := (Prod.mk.inj (Option.some.inj hbranch)).1
    rw [← CVMValue.intValue.inj (List.cons.inj (Option.some.inj hcompare)).1, hresult] at hiff
    exact Bool.eq_iff_iff.2 hiff
  · rintro rfl
    intro returnPc rest
    refine ⟨taken, if taken then 1 else 0, hruns.branch returnPc rest, hruns.compare rest, ?_, ?_⟩
    · exact (hresult taken).symm
    · cases zeroExtend with
      | true => exact hruns.zeroExtended
      | false => exact hruns.signExtended

/-- Without sign, 7 is less than -1 in 32 bits and in 64. -/
theorem branchCompareAgree_iff_sample :
    @BranchCompareAgree .int64 false .cgtUn .i .i4 (.long 7) (.intValue (-1)) := by
  have haccepted : relationAccepted false .cgtUn .i .i4 = true := rfl
  apply (branchCompareAgree_iff false haccepted (.i64 7) (.i4 (-1))).2
  intro h
  exact absurd h.1 (by decide)

/-- But 2^32 is only less than it in 64. -/
theorem not_branchCompareAgree :
    execBranchCode (cvmCoderBranch .int64 .bgtUn .i .i4) (0 : BitVec NativeInt.int64.bits)
      [.intValue (-1), .long 0x100000000] = some (true, []) ∧
    @execInsns .int64 (cvmCoderCompare .int64 .cgtUn .i .i4 false)
      [.intValue (-1), .long 0x100000000] = some [.intValue 0] ∧
    ∀ zeroExtend, ¬ @BranchCompareAgree .int64 zeroExtend .cgtUn .i .i4
      (.long 0x100000000) (.intValue (-1)) := by
  have hbranch : execBranchCode (cvmCoderBranch .int64 .bgtUn .i .i4)
      (0 : BitVec NativeInt.int64.bits) [.intValue (-1), .long 0x100000000] = some (true, []) := by
    decide
  have hcompare : @execInsns .int64 (cvmCoderCompare .int64 .cgtUn .i .i4 false)
      [.intValue (-1), .long 0x100000000] = some [.intValue 0] := by
    decide
  refine ⟨hbranch, hcompare, fun zeroExtend hagree => ?_⟩
  obtain ⟨taken, result, hbranch', hcompare', hiff, _⟩ := hagree 0 []
  cases hbranch.symm.trans hbranch'
  cases hcompare.symm.trans hcompare'
  exact hiff.1 rfl rfl

end Runs

end Pnet.Engine
