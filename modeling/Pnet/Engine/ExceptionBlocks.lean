import Pnet.Image.MethodCode
import Pnet.Lib.NestedForest

/-! The tree of exception blocks that the verifier builds, `engine/coder.c` and
`engine/verify.c`. A block is the number of its entry in `blocks`; a walk that takes more
steps than there are blocks is `endless`. What is left out are the labels and the user data
of a block. -/
namespace Pnet.Engine.Coder
open Pnet.Image

/-- `IL_CODER_HANDLER_TYPE_*` -/
inductive HandlerType where
  | tryBlock
  | catchBlock
  | filteredCatch
  | finallyBlock
  | faultBlock
  | filter
deriving DecidableEq, Repr

structure ILCoderExceptionBlock where
  flags : HandlerType
  startOffset : ILUInt32
  endOffset : ILUInt32
  parent : Option Nat
  nested : Option Nat
  nextNested : Option Nat
deriving DecidableEq, Repr

/-- `handlers` are those of a try block, from `handlerBlock` on along `nextHandler`;
`filterBlock` is that of a filtered catch. -/
structure ILCoderExceptions where
  blocks : Nat → ILCoderExceptionBlock
  firstBlock : Option Nat
  numBlocks : Nat
  handlers : Nat → List Nat
  filterBlock : Nat → Option Nat

inductive CoderError where
  | branchErr
  | typeErr
  | endless
deriving DecidableEq, Repr

namespace ILCoderExceptions

variable (s : ILCoderExceptions)

def setBlock (b : Nat) (block : ILCoderExceptionBlock) : ILCoderExceptions :=
  { s with blocks := Function.update s.blocks b block }

def setParent (b : Nat) (parent : Option Nat) : ILCoderExceptions :=
  s.setBlock b { s.blocks b with parent := parent }

def setNested (b : Nat) (nested : Option Nat) : ILCoderExceptions :=
  s.setBlock b { s.blocks b with nested := nested }

def setNextNested (b : Nat) (nextNested : Option Nat) : ILCoderExceptions :=
  s.setBlock b { s.blocks b with nextNested := nextNested }

def setFirstBlock (firstBlock : Option Nat) : ILCoderExceptions :=
  { s with firstBlock := firstBlock }

/-- `&(coderExceptions->blocks[coderExceptions->numBlocks++])`, without its links. -/
def alloc (flags : HandlerType) (startOffset endOffset : ILUInt32) : ILCoderExceptions :=
  { s.setBlock s.numBlocks ⟨flags, startOffset, endOffset, none, none, none⟩ with
    numBlocks := s.numBlocks + 1 }

end ILCoderExceptions

/-! ### Insertion -/

/-- The blocks that `block` encloses, after the first one: the last of them. -/
def nestFrom (s : ILCoderExceptions) (block : Nat) :
    Nat → Nat → Option Nat → Except CoderError (ILCoderExceptions × Nat)
  | _, lastNestedEB, none => .ok (s, lastNestedEB)
  | 0, _, some _ => .error .endless
  | fuel + 1, lastNestedEB, some nextEB =>
    if (s.blocks block).endOffset ≤ (s.blocks nextEB).startOffset then .ok (s, lastNestedEB)
    else if (s.blocks nextEB).endOffset ≤ (s.blocks block).endOffset then
      let s := s.setParent nextEB (some block)
      nestFrom s block fuel nextEB (s.blocks nextEB).nextNested
    else .error .branchErr

def nestExceptionBlocks (s : ILCoderExceptions) (block : Nat) (prevEB : Option Nat)
    (firstNestedEB : Nat) : Except CoderError ILCoderExceptions := do
  let s := s.setNested block (some firstNestedEB)
  let s := s.setParent block (s.blocks firstNestedEB).parent
  let s := s.setParent firstNestedEB (some block)
  let (s, lastNestedEB) ←
    nestFrom s block s.numBlocks firstNestedEB (s.blocks firstNestedEB).nextNested
  let s := s.setNextNested block (s.blocks lastNestedEB).nextNested
  let s := s.setNextNested lastNestedEB none
  match prevEB, (s.blocks block).parent with
  | some prevEB, _ => return s.setNextNested prevEB (some block)
  | none, some parent => return s.setNested parent (some block)
  | none, none => return s.setFirstBlock (some block)

/-- "The current block is before the check block" -/
def insertBefore (s : ILCoderExceptions) (block : Nat) (prevEB : Option Nat) (checkEB : Nat) :
    ILCoderExceptions :=
  match prevEB, (s.blocks checkEB).parent with
  | some prevEB, _ =>
    let s := s.setNextNested block (s.blocks prevEB).nextNested
    let s := s.setNextNested prevEB (some block)
    s.setParent block (s.blocks prevEB).parent
  | none, some checkEB =>
    let s := s.setNextNested block (s.blocks checkEB).nested
    let s := s.setNested checkEB (some block)
    s.setParent block (some checkEB)
  | none, none => (s.setNextNested block s.firstBlock).setFirstBlock (some block)

def insertFrom (s : ILCoderExceptions) (block : Nat) :
    Nat → Option Nat → Nat → Except CoderError ILCoderExceptions
  | 0, _, _ => .error .endless
  | fuel + 1, prevEB, checkEB =>
    if (s.blocks block).endOffset ≤ (s.blocks checkEB).startOffset then
      .ok (insertBefore s block prevEB checkEB)
    else if (s.blocks checkEB).endOffset ≤ (s.blocks block).startOffset then
      match (s.blocks checkEB).nextNested with
      | some nextNested => insertFrom s block fuel (some checkEB) nextNested
      | none =>
        let s := s.setNextNested checkEB (some block)
        .ok (s.setParent block (s.blocks checkEB).parent)
    else if (s.blocks block).startOffset ≤ (s.blocks checkEB).startOffset ∧
        (s.blocks checkEB).endOffset ≤ (s.blocks block).endOffset then
      nestExceptionBlocks s block prevEB checkEB
    else if (s.blocks checkEB).startOffset ≤ (s.blocks block).startOffset ∧
        (s.blocks block).endOffset ≤ (s.blocks checkEB).endOffset then
      match (s.blocks checkEB).nested with
      | some nested => insertFrom s block fuel none nested
      | none => .ok ((s.setNested checkEB (some block)).setParent block (some checkEB))
    else .error .branchErr

def insertExceptionBlock (s : ILCoderExceptions) (block : Nat) :
    Except CoderError ILCoderExceptions :=
  match s.firstBlock with
  | none => .ok s
  | some checkEB => insertFrom s block s.numBlocks none checkEB

/-! ### The clauses of a method -/

def findOrAddTryBlock (s : ILCoderExceptions) (tryStart tryEnd : ILUInt32) :
    Except CoderError (ILCoderExceptions × Nat) :=
  match (List.range s.numBlocks).find? fun b =>
      (s.blocks b).startOffset = tryStart ∧ (s.blocks b).endOffset = tryEnd ∧
        (s.blocks b).flags = .tryBlock with
  | some block => .ok (s, block)
  | none => do
    let block := s.numBlocks
    let s : ILCoderExceptions := { s.alloc .tryBlock tryStart tryEnd with
      handlers := Function.update s.handlers block [] }
    match s.firstBlock with
    | none => return (s.setFirstBlock (some block), block)
    | some _ => return (← insertExceptionBlock s block, block)

def addHandlerBlock (s : ILCoderExceptions) (tryBlock handler : Nat) : ILCoderExceptions :=
  { s with handlers := Function.update s.handlers tryBlock (s.handlers tryBlock ++ [handler]) }

/-- `accessible` says of a class token that it is that of a class which the owner of the
method may access. -/
def ilCoderAddExceptionBlock (accessible : ILUInt32 → Bool) (s : ILCoderExceptions)
    (ex : ILException) : Except CoderError ILCoderExceptions := do
  let startOffset := ex.tryOffset
  let endOffset := ex.tryOffset + ex.tryLength
  if endOffset < startOffset then throw .branchErr
  let (s, tryBlock) ← findOrAddTryBlock s startOffset endOffset
  let startOffset := ex.handlerOffset
  let endOffset := ex.handlerOffset + ex.handlerLength
  if endOffset < startOffset then throw .branchErr
  let handler := s.numBlocks
  let s ←
    if ex.flags &&& (ilMetaExceptionFinally ||| ilMetaExceptionFault) ≠ 0 then
      if ex.flags &&& ilMetaExceptionFinally ≠ 0 then
        pure (s.alloc .finallyBlock startOffset endOffset)
      else pure (s.alloc .faultBlock startOffset endOffset)
    else if ex.flags &&& ilMetaExceptionFilter ≠ 0 then
      let s := s.alloc .filteredCatch startOffset endOffset
      let filterBlock := s.numBlocks
      let s := s.alloc .filter ex.extraArg ex.handlerOffset
      let s ← insertExceptionBlock s filterBlock
      pure { s with filterBlock := Function.update s.filterBlock handler (some filterBlock) }
    else if accessible ex.extraArg then pure (s.alloc .catchBlock startOffset endOffset)
    else throw .typeErr
  let s ← insertExceptionBlock s handler
  return addHandlerBlock s tryBlock handler

/-- The last block of a list. -/
def lastFrom (s : ILCoderExceptions) : Nat → Nat → Except CoderError Nat
  | 0, _ => .error .endless
  | fuel + 1, b =>
    match (s.blocks b).nextNested with
    | some next => lastFrom s fuel next
    | none => .ok b

/-- "Now check if all exception block limits are in the code." -/
def checkLimits (s : ILCoderExceptions) (len : ILUInt32) : Except CoderError Unit :=
  match s.firstBlock with
  | none => .ok ()
  | some first => do
    if len < (s.blocks first).startOffset then throw .branchErr
    let last ← lastFrom s s.numBlocks first
    if len < (s.blocks last).endOffset then throw .branchErr

/-- What `_ILVerify` does with the clauses of a method. -/
def setupExceptions (accessible : ILUInt32 → Bool) (codeLen : ILUInt32)
    (exceptions : List ILException) : Except CoderError ILCoderExceptions := do
  let s ← exceptions.foldlM (ilCoderAddExceptionBlock accessible)
    ⟨fun _ => ⟨.tryBlock, 0, 0, none, none, none⟩, none, 0, fun _ => [], fun _ => none⟩
  checkLimits s codeLen
  return s

/-! ### Search -/

def findFrom (s : ILCoderExceptions) (offset : ILUInt32) :
    Nat → Option Nat → Option Nat → Except CoderError (Option Nat)
  | _, prevEB, none => .ok prevEB
  | 0, _, some _ => .error .endless
  | fuel + 1, prevEB, some block =>
    if offset < (s.blocks block).startOffset then .ok prevEB
    else if (s.blocks block).endOffset ≤ offset then
      findFrom s offset fuel prevEB (s.blocks block).nextNested
    else findFrom s offset fuel (some block) (s.blocks block).nested

def ilCoderFindExceptionBlock (s : ILCoderExceptions) (offset : ILUInt32) :
    Except CoderError (Option Nat) :=
  findFrom s offset s.numBlocks none s.firstBlock

end Pnet.Engine.Coder

/-! ### Links

The links between exception blocks hold a forest, and each of them is read and written at
one place. -/
namespace Pnet.Engine.Coder
open Pnet.Lib

abbrev BlockMemory := Nat → ILCoderExceptionBlock

def startOf (blocks : BlockMemory) (b : Nat) : Nat := (blocks b).startOffset.toNat

def endOf (blocks : BlockMemory) (b : Nat) : Nat := (blocks b).endOffset.toNat

/-- The links from `start` on hold the forest, whose roots have this parent. -/
def Holds (blocks : BlockMemory) : Option Nat → Option Nat → Forest Nat → Prop
  | _, start, .nil => start = none
  | parent, start, .cons b children rest => start = some b ∧ (blocks b).parent = parent ∧
      Holds blocks (some b) (blocks b).nested children ∧
      Holds blocks parent (blocks b).nextNested rest

theorem Holds.congr {blocks blocks' : BlockMemory} {parent start : Option Nat} {f : Forest Nat}
    (h : Holds blocks parent start f)
    (hsame : ∀ b ∈ f.nodes, (blocks' b).parent = (blocks b).parent ∧
      (blocks' b).nested = (blocks b).nested ∧ (blocks' b).nextNested = (blocks b).nextNested) :
    Holds blocks' parent start f := by
  induction f generalizing parent start with
  | nil => exact h
  | cons b children rest ihc ihr =>
    obtain ⟨hstart, hparent, hchildren, hrest⟩ := h
    obtain ⟨hp, hn, hnn⟩ := hsame b List.mem_cons_self
    refine ⟨hstart, hp.trans hparent, ?_, ?_⟩
    · rw [hn]
      exact ihc hchildren fun b' hb' =>
        hsame b' (List.mem_cons_of_mem _ (List.mem_append_left _ hb'))
    · rw [hnn]
      exact ihr hrest fun b' hb' =>
        hsame b' (List.mem_cons_of_mem _ (List.mem_append_right _ hb'))

/-- Where the pointer to a list of siblings is. -/
inductive Link where
  | first
  | next (b : Nat)
  | nested (b : Nat)
deriving DecidableEq

def Link.read (s : ILCoderExceptions) : Link → Option Nat
  | first => s.firstBlock
  | next b => (s.blocks b).nextNested
  | nested b => (s.blocks b).nested

def linkOf (prevEB parent : Option Nat) : Link :=
  match prevEB, parent with
  | some prevEB, _ => .next prevEB
  | none, some parent => .nested parent
  | none, none => .first

/-- Links changed in the touched blocks and at one place outside, and nothing else. -/
structure Frame (s s' : ILCoderExceptions) (touched : List Nat) (l : Link) : Prop where
  offsets : ∀ b, (s'.blocks b).flags = (s.blocks b).flags ∧
    (s'.blocks b).startOffset = (s.blocks b).startOffset ∧
    (s'.blocks b).endOffset = (s.blocks b).endOffset
  parent : ∀ b ∉ touched, (s'.blocks b).parent = (s.blocks b).parent
  nested : ∀ b ∉ touched, l ≠ .nested b → (s'.blocks b).nested = (s.blocks b).nested
  nextNested : ∀ b ∉ touched, l ≠ .next b → (s'.blocks b).nextNested = (s.blocks b).nextNested
  firstBlock : l ≠ .first → s'.firstBlock = s.firstBlock
  numBlocks : s'.numBlocks = s.numBlocks

variable {s s' s'' : ILCoderExceptions} {touched : List Nat} {l : Link}

theorem Frame.refl (s : ILCoderExceptions) (touched : List Nat) (l : Link) :
    Frame s s touched l :=
  ⟨fun _ => ⟨rfl, rfl, rfl⟩, fun _ _ => rfl, fun _ _ _ => rfl, fun _ _ _ => rfl, fun _ => rfl, rfl⟩

theorem Frame.trans (h : Frame s s' touched l) (h' : Frame s' s'' touched l) :
    Frame s s'' touched l := by
  refine ⟨fun b => ?_, fun b hb => (h'.parent b hb).trans (h.parent b hb),
    fun b hb hl => (h'.nested b hb hl).trans (h.nested b hb hl),
    fun b hb hl => (h'.nextNested b hb hl).trans (h.nextNested b hb hl),
    fun hl => (h'.firstBlock hl).trans (h.firstBlock hl), h'.numBlocks.trans h.numBlocks⟩
  obtain ⟨hf, hs, he⟩ := h.offsets b
  obtain ⟨hf', hs', he'⟩ := h'.offsets b
  exact ⟨hf'.trans hf, hs'.trans hs, he'.trans he⟩

/-- What is touched below a link in the touched blocks is touched. -/
theorem Frame.widen {touched' : List Nat} {l' : Link} (h : Frame s s' touched l)
    (hsub : ∀ b ∈ touched, b ∈ touched')
    (hl : l = l' ∨ (∃ b ∈ touched', l = .next b ∨ l = .nested b)) :
    Frame s s' touched' l' := by
  have hne : ∀ b ∉ touched', ∀ k, k = .next b ∨ k = .nested b → l' ≠ k → l ≠ k := by
    rintro b hb k hk hk' rfl
    rcases hl with rfl | ⟨b', hb', hl⟩
    · exact hk' rfl
    · rcases hk with rfl | rfl
      · rcases hl with hl | hl
        · exact hb (Link.next.inj hl ▸ hb')
        · cases hl
      · rcases hl with hl | hl
        · cases hl
        · exact hb (Link.nested.inj hl ▸ hb')
  refine ⟨h.offsets, fun b hb => h.parent b fun hmem => hb (hsub b hmem),
    fun b hb hl' => h.nested b (fun hmem => hb (hsub b hmem)) (hne b hb _ (.inr rfl) hl'),
    fun b hb hl' => h.nextNested b (fun hmem => hb (hsub b hmem)) (hne b hb _ (.inl rfl) hl'),
    fun hl' => h.firstBlock ?_, h.numBlocks⟩
  rintro rfl
  rcases hl with rfl | ⟨b', _, hl | hl⟩
  · exact hl' rfl
  · cases hl
  · cases hl

/-! ### Writing one link -/

namespace ILCoderExceptions

theorem parent_setParent (b c : Nat) (v : Option Nat) :
    ((s.setParent b v).blocks c).parent = if c = b then v else (s.blocks c).parent := by
  by_cases hc : c = b
  · subst hc
    simp [setParent, setBlock]
  · simp [setParent, setBlock, hc]

@[simp] theorem nested_setParent (b c : Nat) (v : Option Nat) :
    ((s.setParent b v).blocks c).nested = (s.blocks c).nested := by
  by_cases hc : c = b
  · subst hc
    simp [setParent, setBlock]
  · simp [setParent, setBlock, hc]

@[simp] theorem nextNested_setParent (b c : Nat) (v : Option Nat) :
    ((s.setParent b v).blocks c).nextNested = (s.blocks c).nextNested := by
  by_cases hc : c = b
  · subst hc
    simp [setParent, setBlock]
  · simp [setParent, setBlock, hc]

@[simp] theorem parent_setNested (b c : Nat) (v : Option Nat) :
    ((s.setNested b v).blocks c).parent = (s.blocks c).parent := by
  by_cases hc : c = b
  · subst hc
    simp [setNested, setBlock]
  · simp [setNested, setBlock, hc]

theorem nested_setNested (b c : Nat) (v : Option Nat) :
    ((s.setNested b v).blocks c).nested = if c = b then v else (s.blocks c).nested := by
  by_cases hc : c = b
  · subst hc
    simp [setNested, setBlock]
  · simp [setNested, setBlock, hc]

@[simp] theorem nextNested_setNested (b c : Nat) (v : Option Nat) :
    ((s.setNested b v).blocks c).nextNested = (s.blocks c).nextNested := by
  by_cases hc : c = b
  · subst hc
    simp [setNested, setBlock]
  · simp [setNested, setBlock, hc]

@[simp] theorem parent_setNextNested (b c : Nat) (v : Option Nat) :
    ((s.setNextNested b v).blocks c).parent = (s.blocks c).parent := by
  by_cases hc : c = b
  · subst hc
    simp [setNextNested, setBlock]
  · simp [setNextNested, setBlock, hc]

@[simp] theorem nested_setNextNested (b c : Nat) (v : Option Nat) :
    ((s.setNextNested b v).blocks c).nested = (s.blocks c).nested := by
  by_cases hc : c = b
  · subst hc
    simp [setNextNested, setBlock]
  · simp [setNextNested, setBlock, hc]

theorem nextNested_setNextNested (b c : Nat) (v : Option Nat) :
    ((s.setNextNested b v).blocks c).nextNested = if c = b then v else (s.blocks c).nextNested := by
  by_cases hc : c = b
  · subst hc
    simp [setNextNested, setBlock]
  · simp [setNextNested, setBlock, hc]

/-- A block that differs in its links only. -/
theorem offsets_setBlock {b : Nat} {block : ILCoderExceptionBlock}
    (h : block.flags = (s.blocks b).flags ∧ block.startOffset = (s.blocks b).startOffset ∧
      block.endOffset = (s.blocks b).endOffset) (c : Nat) :
    ((s.setBlock b block).blocks c).flags = (s.blocks c).flags ∧
      ((s.setBlock b block).blocks c).startOffset = (s.blocks c).startOffset ∧
      ((s.setBlock b block).blocks c).endOffset = (s.blocks c).endOffset := by
  by_cases hc : c = b
  · subst hc
    simpa [setBlock] using h
  · simp [setBlock, hc]

end ILCoderExceptions

open ILCoderExceptions

theorem frame_setParent {b : Nat} (hb : b ∈ touched) (v : Option Nat) :
    Frame s (s.setParent b v) touched l := by
  refine ⟨offsets_setBlock ⟨rfl, rfl, rfl⟩, fun c hc => ?_, fun _ _ _ => nested_setParent ..,
    fun _ _ _ => nextNested_setParent .., fun _ => rfl, rfl⟩
  have hne : c ≠ b := by
    rintro rfl
    exact hc hb
  rw [parent_setParent, if_neg hne]

theorem frame_setNested {b : Nat} (hb : b ∈ touched ∨ l = .nested b) (v : Option Nat) :
    Frame s (s.setNested b v) touched l := by
  refine ⟨offsets_setBlock ⟨rfl, rfl, rfl⟩, fun _ _ => parent_setNested .., fun c hc hl => ?_,
    fun _ _ _ => nextNested_setNested .., fun _ => rfl, rfl⟩
  have hne : c ≠ b := by
    rintro rfl
    exact hb.elim hc hl
  rw [nested_setNested, if_neg hne]

theorem frame_setNextNested {b : Nat} (hb : b ∈ touched ∨ l = .next b) (v : Option Nat) :
    Frame s (s.setNextNested b v) touched l := by
  refine ⟨offsets_setBlock ⟨rfl, rfl, rfl⟩, fun _ _ => parent_setNextNested ..,
    fun _ _ _ => nested_setNextNested .., fun c hc hl => ?_, fun _ => rfl, rfl⟩
  have hne : c ≠ b := by
    rintro rfl
    exact hb.elim hc hl
  rw [nextNested_setNextNested, if_neg hne]

theorem frame_setFirstBlock (v : Option Nat) : Frame s (s.setFirstBlock v) touched .first :=
  ⟨fun _ => ⟨rfl, rfl, rfl⟩, fun _ _ => rfl, fun _ _ _ => rfl, fun _ _ _ => rfl,
    fun h => absurd rfl h, rfl⟩

end Pnet.Engine.Coder
