import Pnet.Engine.Cvm
import Pnet.Engine.ExceptionBlocks

/-! The `leave` instruction: `verify_except.c` with the parts of the coder that it calls, and the
instructions of `cvm_except.c` and `cvm_stack.c` that it puts out. -/
namespace Pnet.Engine.Coder

/-! ### Code -/

inductive ILEngineType where
  | I4 | I8 | I | F | M | O | T | MV | Invalid | TypedRef | CM
deriving DecidableEq, Repr

/-- An item of the evaluation stack; `typeSize` is `GetTypeSize` of its type. -/
structure ILEngineStackItem where
  engineType : ILEngineType
  typeSize : Nat
deriving DecidableEq, Repr

/-- The sizes in words, `CVM_WORDS_PER_*`. -/
structure CVMWords where
  native : NativeInt
  perNativeFloat : Nat
  perTypedRef : Nat

namespace CVMWords

def perLong (w : CVMWords) : Nat :=
  match w.native with
  | .int32 => 2
  | .int64 => 1

def perNativeInt (w : CVMWords) : Nat :=
  match w.native with
  | .int32 => 1
  | .int64 => w.perLong

end CVMWords

/-- `dest` is the label of a branch; `block` is the handler that `ILCoderCallFinally` is for. -/
inductive CVMInsn where
  | pop (numWords : Nat)
  | jsr (block : Nat) (dest : ILUInt32)
  | leaveCatch
  | br (dest : ILUInt32)
deriving DecidableEq, Repr

/-- `ComputeStackSize` for one item. -/
def itemSize (w : CVMWords) (item : ILEngineStackItem) : Nat :=
  match item.engineType with
  | .I4 | .M | .CM | .T | .O => 1
  | .I8 => w.perLong
  | .I => w.perNativeInt
  | .F => w.perNativeFloat
  | .MV => item.typeSize
  | .TypedRef => w.perTypedRef
  | .Invalid => 0

def computeStackSize (w : CVMWords) (stack : List ILEngineStackItem) : Nat :=
  (stack.map (itemSize w)).sum

def cvmCoderPop (w : CVMWords) (item : ILEngineStackItem) : List CVMInsn :=
  match item.engineType with
  | .I4 | .M | .O | .T => [.pop 1]
  | .I8 => [.pop w.perLong]
  | .I => [.pop w.perNativeInt]
  | .F => [.pop w.perNativeFloat]
  | .MV => [.pop item.typeSize]
  | .TypedRef => [.pop w.perTypedRef]
  | .Invalid | .CM => []

/-- The handlers of a try block that are called when it is left. -/
def finallyHandlers (s : ILCoderExceptions) (tryBlock : Nat) : List Nat :=
  (s.handlers tryBlock).filter fun handler => (s.blocks handler).flags = .finallyBlock

inductive VerifyError where
  | branch
  | stack
  | endless
deriving DecidableEq, Repr

/-- The offset is inside of the block. -/
def Contains (s : ILCoderExceptions) (block : Nat) (offset : ILUInt32) : Prop :=
  (s.blocks block).startOffset ≤ offset ∧ offset < (s.blocks block).endOffset

instance (s : ILCoderExceptions) (block : Nat) (offset : ILUInt32) :
    Decidable (Contains s block offset) :=
  inferInstanceAs (Decidable (_ ∧ _))

/-- What is put out for a block that is left. -/
def leaveBlock (s : ILCoderExceptions) (block : Nat) : Except VerifyError (List CVMInsn) :=
  match (s.blocks block).flags with
  | .tryBlock =>
    .ok ((finallyHandlers s block).map fun handler => .jsr handler (s.blocks handler).startOffset)
  | .finallyBlock | .faultBlock | .filter => .error .branch
  | .catchBlock | .filteredCatch => .ok [.leaveCatch]

def leaveFrom (s : ILCoderExceptions) (dest : ILUInt32) :
    Nat → Option Nat → Except VerifyError (List CVMInsn)
  | _, none => .ok []
  | 0, some _ => .error .endless
  | fuel + 1, some block =>
    -- "If the leave target is inside this exception block then stop here."
    if Contains s block dest then .ok []
    else do
      let code ← leaveBlock s block
      return code ++ (← leaveFrom s dest fuel (s.blocks block).parent)

/-- `stack` is the evaluation stack, top first; `label` is how many items the stack has at the
label of the destination, if it is known. -/
def processLeave (w : CVMWords) (s : ILCoderExceptions) (stack : List ILEngineStackItem)
    (offset dest : ILUInt32) (label : Option Nat) : Except VerifyError (List CVMInsn) := do
  let pops := stack.flatMap (cvmCoderPop w)
  match ilCoderFindExceptionBlock s offset with
  | .error _ => throw .endless
  | .ok block =>
    let code ← leaveFrom s dest s.numBlocks block
    -- `VALIDATE_BRANCH_STACK`, the stack being empty
    if label.getD 0 = 0 then return pops ++ code ++ [.br dest] else throw .stack

/-! ### Execution -/

section Execution

variable (Word World : Type)

/-- `stack` is the stack of the frame, top first. -/
structure CVMState where
  stack : List Word
  world : World

/-- `handler` is what the code from a label on does up to its `ret_jsr`, which finds the return
address on the stack again. -/
structure CVMThread where
  invalidPc : Word
  returnPc : Word
  aborting : World → Bool
  handler : ILUInt32 → World → World

variable {Word World}

inductive LeaveEvent (Word : Type) where
  /-- a handler was run -/
  | ran (block : Nat)
  /-- `leave_catch` took a word off the stack -/
  | took (word : Word)
deriving DecidableEq, Repr

inductive LeaveOutcome (Word World : Type) where
  | continuesAt (dest : ILUInt32) (state : CVMState Word World)
  /-- `_CVM_EXIT_PROPAGATE_ABORT` -/
  | propagateAbort (state : CVMState Word World)

variable [DecidableEq Word] (thread : CVMThread Word World)

/-- There is no result where the code ends or the stack is too small. -/
def execLeave : List CVMInsn → CVMState Word World →
    Option (List (LeaveEvent Word) × LeaveOutcome Word World)
  | [], _ => none
  | .pop numWords :: code, ⟨stack, world⟩ =>
    if numWords ≤ stack.length then execLeave code ⟨stack.drop numWords, world⟩ else none
  | .jsr block dest :: code, ⟨stack, world⟩ =>
    let called := thread.returnPc :: stack
    let returned : CVMState Word World := ⟨called.tail, thread.handler dest world⟩
    (execLeave code returned).map fun (events, outcome) => (.ran block :: events, outcome)
  | .leaveCatch :: _, ⟨[], _⟩ => none
  | .leaveCatch :: code, ⟨word :: stack, world⟩ =>
    if word = thread.invalidPc ∧ thread.aborting world then
      some ([.took word], .propagateAbort ⟨stack, world⟩)
    else (execLeave code ⟨stack, world⟩).map fun (events, outcome) =>
      (.took word :: events, outcome)
  | .br dest :: _, state => some ([], .continuesAt dest state)

end Execution

end Pnet.Engine.Coder
