import Pnet.Engine.ExceptionTree
import Pnet.Lib.Loop

/-! What the clauses of a method build: every block of the array is in the forest once, and
the blocks nest if each of them ends behind its start. -/
namespace Pnet.Engine.Coder
open Pnet.Lib Pnet.Image

variable {s s' s'' : ILCoderExceptions} {f : Forest Nat} {pending : List Nat}

/-- The blocks are in the forest but for those that are not inserted yet. -/
structure Linked (s : ILCoderExceptions) (f : Forest Nat) (pending : List Nat) : Prop where
  holds : Holds s.blocks none s.firstBlock f
  nodes : (f.nodes ++ pending).Perm (List.range s.numBlocks)
  fresh : ∀ b ∈ pending, (s.blocks b).parent = none ∧ (s.blocks b).nested = none ∧
    (s.blocks b).nextNested = none

/-- Blocks were added, and none has other offsets. -/
structure Grew (s s' : ILCoderExceptions) : Prop where
  numBlocks : s.numBlocks ≤ s'.numBlocks
  offsets : ∀ b < s.numBlocks, (s'.blocks b).startOffset = (s.blocks b).startOffset ∧
    (s'.blocks b).endOffset = (s.blocks b).endOffset

def Ordered (s : ILCoderExceptions) (f : Forest Nat) : Prop :=
  f.Within (startOf s.blocks) (endOf s.blocks) 0 (2 ^ 32 - 1)

theorem Grew.refl (s : ILCoderExceptions) : Grew s s := ⟨le_rfl, fun _ _ => ⟨rfl, rfl⟩⟩

theorem Grew.trans (h : Grew s s') (h' : Grew s' s'') : Grew s s'' := by
  refine ⟨h.numBlocks.trans h'.numBlocks, fun b hb => ?_⟩
  obtain ⟨hs, he⟩ := h.offsets b hb
  obtain ⟨hs', he'⟩ := h'.offsets b (hb.trans_le h.numBlocks)
  exact ⟨hs'.trans hs, he'.trans he⟩

theorem Linked.mem_lt (h : Linked s f pending) {b : Nat} (hb : b ∈ f.nodes ++ pending) :
    b < s.numBlocks := List.mem_range.1 (h.nodes.subset hb)

theorem Linked.nodup (h : Linked s f pending) : (f.nodes ++ pending).Nodup :=
  h.nodes.nodup_iff.2 List.nodup_range

theorem Linked.length_le (h : Linked s f pending) : f.nodes.length ≤ s.numBlocks := by
  have hlen := h.nodes.length_eq
  rw [List.length_append, List.length_range] at hlen
  omega

theorem Ordered.grew (h : Ordered s f) (hgrew : Grew s s')
    (hlt : ∀ b ∈ f.nodes, b < s.numBlocks) : Ordered s' f := by
  refine Forest.Within.congr h fun b hb => ?_
  obtain ⟨hs, he⟩ := hgrew.offsets b (hlt b hb)
  exact ⟨congrArg BitVec.toNat hs, congrArg BitVec.toNat he⟩

theorem blocks_alloc (s : ILCoderExceptions) (flags : HandlerType) (a e : ILUInt32) {b : Nat}
    (hb : b < s.numBlocks) : (s.alloc flags a e).blocks b = s.blocks b :=
  Function.update_of_ne hb.ne _ _

theorem blocks_alloc_new (s : ILCoderExceptions) (flags : HandlerType) (a e : ILUInt32) :
    (s.alloc flags a e).blocks s.numBlocks = ⟨flags, a, e, none, none, none⟩ :=
  Function.update_self ..

theorem grew_alloc (s : ILCoderExceptions) (flags : HandlerType) (a e : ILUInt32) :
    Grew s (s.alloc flags a e) := by
  refine ⟨Nat.le_succ _, fun b hb => ?_⟩
  rw [blocks_alloc s flags a e hb]
  exact ⟨rfl, rfl⟩

theorem Linked.alloc (h : Linked s f pending) (flags : HandlerType) (a e : ILUInt32) :
    Linked (s.alloc flags a e) f (pending ++ [s.numBlocks]) := by
  have hsame : ∀ b ∈ f.nodes ++ pending, (s.alloc flags a e).blocks b = s.blocks b :=
    fun b hb => blocks_alloc s flags a e (h.mem_lt hb)
  refine ⟨?_, ?_, fun b hb => ?_⟩
  · refine h.holds.congr fun b hb => ?_
    rw [hsame b (List.mem_append_left _ hb)]
    exact ⟨rfl, rfl, rfl⟩
  · show (f.nodes ++ (pending ++ [s.numBlocks])).Perm (List.range (s.numBlocks + 1))
    rw [← List.append_assoc, List.range_succ]
    exact h.nodes.append_right _
  · rcases List.mem_append.1 hb with hb | hb
    · rw [hsame b (List.mem_append_right _ hb)]
      exact h.fresh b hb
    · rw [List.mem_singleton.1 hb, blocks_alloc_new]
      exact ⟨rfl, rfl, rfl⟩

/-- The links that a block is inserted at. -/
theorem Linked.at (h : Linked s f pending) {x : Nat} (hx : x ∈ pending) :
    At s x none none s.firstBlock f := by
  have hnodup := List.nodup_append.1 h.nodup
  refine ⟨h.holds, hnodup.1, fun hmem => hnodup.2.2 x hmem x hx rfl, fun p hp => ?_,
    fun p hp => ?_, rfl, h.fresh x hx⟩
  · cases hp
  · cases hp

theorem Linked.inserted (h : Linked s f pending) {x : Nat} (hx : x ∈ pending)
    (hframe : Frame s s' (x :: f.nodes) .first) {f' : Forest Nat}
    (hholds : Holds s'.blocks none s'.firstBlock f')
    (hperm : f'.nodes.Perm (x :: f.nodes)) : Linked s' f' (pending.erase x) := by
  have hnodup := List.nodup_append.1 h.nodup
  refine ⟨hholds, ?_, fun b hb => ?_⟩
  · rw [hframe.numBlocks]
    calc (f'.nodes ++ pending.erase x).Perm ((x :: f.nodes) ++ pending.erase x) :=
          hperm.append_right _
      _ |>.Perm (f.nodes ++ x :: pending.erase x) := List.perm_middle.symm
      _ |>.Perm (f.nodes ++ pending) := (List.perm_cons_erase hx).symm.append_left _
      _ |>.Perm (List.range s.numBlocks) := h.nodes
  · have hbp := List.mem_of_mem_erase hb
    have hbx : b ≠ x := fun heq => (hnodup.2.1.not_mem_erase) (heq ▸ hb)
    have hbt : b ∉ x :: f.nodes := fun hmem => (List.mem_cons.1 hmem).elim hbx
      fun hmem => hnodup.2.2 b hmem b hbp rfl
    rw [hframe.parent b hbt, hframe.nested b hbt (by simp), hframe.nextNested b hbt (by simp)]
    exact h.fresh b hbp

theorem Frame.grew {touched : List Nat} {l : Link} (h : Frame s s' touched l) : Grew s s' :=
  ⟨h.numBlocks.ge, fun b _ => (h.offsets b).2⟩

/-- A step that goes on from one forest to another one, which nests if the first one does and
the blocks that the step adds end behind their starts. -/
structure Step (s : ILCoderExceptions) (f : Forest Nat) (added : Prop) (pending : List Nat)
    (s' : ILCoderExceptions) (f' : Forest Nat) : Prop where
  linked : Linked s' f' pending
  grew : Grew s s'
  nonempty : f.nodes ≠ [] → f'.nodes ≠ []
  ordered : added → Ordered s f → Ordered s' f'

theorem insertExceptionBlock_spec (h : Linked s f pending) {x : Nat} (hx : x ∈ pending)
    (hne : f.nodes ≠ []) : insertExceptionBlock s x = .error .branchErr ∨
      ∃ s' f', insertExceptionBlock s x = .ok s' ∧
        Step s f ((s.blocks x).startOffset ≤ (s.blocks x).endOffset) (pending.erase x) s' f' := by
  have hat := h.at hx
  unfold insertExceptionBlock
  cases hfirst : s.firstBlock with
  | none =>
    have hholds := h.holds
    rw [hfirst] at hholds
    rw [hholds.eq_nil] at hne
    exact absurd rfl hne
  | some c =>
    rw [hfirst] at hat
    obtain ⟨hsome, hnone⟩ := insertFrom_spec hat h.length_le h.length_le
    cases hinsert : f.insert (startOf s.blocks) (endOf s.blocks) x with
    | none => exact .inl (hnone hinsert)
    | some f' =>
      obtain ⟨s', hrun, hframe, hholds⟩ := hsome f' hinsert
      have hperm := Forest.nodes_insert hinsert
      have hlinked := h.inserted hx hframe hholds hperm
      refine .inr ⟨s', f', hrun, hlinked, hframe.grew, fun _ hnil => ?_, fun hadded hordered => ?_⟩
      · rw [hnil] at hperm
        exact absurd hperm.symm.eq_nil (List.cons_ne_nil _ _)
      · have hmax : endOf s.blocks x ≤ 2 ^ 32 - 1 := by
          have := (s.blocks x).endOffset.isLt
          unfold endOf
          omega
        have hwithin := Forest.within_insert hordered (Nat.zero_le _) hadded hmax hinsert
        refine Forest.Within.congr hwithin fun b _ => ?_
        obtain ⟨_, hs, he⟩ := hframe.offsets b
        exact ⟨congrArg BitVec.toNat hs, congrArg BitVec.toNat he⟩

/-- The first block of all. -/
theorem Linked.setFirstBlock {x : Nat} (h : Linked s f [x]) (hfirst : s.firstBlock = none) :
    Step s f ((s.blocks x).startOffset ≤ (s.blocks x).endOffset) [] (s.setFirstBlock (some x))
      (.cons x .nil .nil) := by
  have hholds := h.holds
  rw [hfirst] at hholds
  obtain rfl := hholds.eq_nil
  obtain ⟨hp, hn, hnn⟩ := h.fresh _ List.mem_cons_self
  refine ⟨⟨⟨rfl, hp, hn, hnn⟩, h.nodes, fun b hb => absurd hb List.not_mem_nil⟩,
    ⟨le_rfl, fun _ _ => ⟨rfl, rfl⟩⟩,
    fun _ => List.cons_ne_nil _ _, fun hadded _ => ⟨Nat.zero_le _, hadded, hadded, ?_⟩⟩
  have := (s.blocks x).endOffset.isLt
  show (s.blocks x).endOffset.toNat ≤ 2 ^ 32 - 1
  omega

/-- Only the links are looked at. -/
theorem Linked.of_blocks (h : Linked s f pending) (hblocks : s'.blocks = s.blocks)
    (hfirst : s'.firstBlock = s.firstBlock) (hnum : s'.numBlocks = s.numBlocks) :
    Linked s' f pending := by
  refine ⟨?_, ?_, ?_⟩
  · rw [hblocks, hfirst]
    exact h.holds
  · rw [hnum]
    exact h.nodes
  · rw [hblocks]
    exact h.fresh

/-- The new try block, and what the insertion makes of it. -/
def newTryBlock (s : ILCoderExceptions) (tryStart tryEnd : ILUInt32) : ILCoderExceptions :=
  { s.alloc .tryBlock tryStart tryEnd with
    handlers := Function.update s.handlers s.numBlocks [] }

def linkTryBlock (s : ILCoderExceptions) (block : Nat) : Except CoderError ILCoderExceptions :=
  match s.firstBlock with
  | none => .ok (s.setFirstBlock (some block))
  | some _ => insertExceptionBlock s block

theorem findOrAddTryBlock_cases (s : ILCoderExceptions) (tryStart tryEnd : ILUInt32) :
    (∃ b < s.numBlocks, findOrAddTryBlock s tryStart tryEnd = .ok (s, b)) ∨
      findOrAddTryBlock s tryStart tryEnd =
        (linkTryBlock (newTryBlock s tryStart tryEnd) s.numBlocks).map
          fun s' => (s', s.numBlocks) := by
  unfold findOrAddTryBlock
  split
  · rename_i block hfind
    exact .inl ⟨block, List.mem_range.1 (List.mem_of_find?_eq_some hfind), rfl⟩
  · refine .inr ?_
    unfold linkTryBlock
    show (match (newTryBlock s tryStart tryEnd).firstBlock with
      | none => _
      | some _ => _) = _
    cases (newTryBlock s tryStart tryEnd).firstBlock with
    | none => rfl
    | some first =>
      show (insertExceptionBlock (newTryBlock s tryStart tryEnd) s.numBlocks >>= _) = _
      cases insertExceptionBlock (newTryBlock s tryStart tryEnd) s.numBlocks <;> rfl

theorem linkTryBlock_spec {x : Nat} (h : Linked s f [x]) :
    linkTryBlock s x = .error .branchErr ∨ ∃ s' f', linkTryBlock s x = .ok s' ∧
      Step s f ((s.blocks x).startOffset ≤ (s.blocks x).endOffset) [] s' f' ∧ f'.nodes ≠ [] := by
  unfold linkTryBlock
  cases hfirst : s.firstBlock with
  | none => exact .inr ⟨_, _, rfl, h.setFirstBlock hfirst, List.cons_ne_nil _ _⟩
  | some first =>
    have hne : f.nodes ≠ [] := by
      intro hnil
      cases f with
      | nil =>
        have hholds : s.firstBlock = none := h.holds
        rw [hfirst] at hholds
        cases hholds
      | cons b children rest => cases hnil
    rcases insertExceptionBlock_spec h List.mem_cons_self hne with herr | ⟨s', f', hrun, hstep⟩
    · exact .inl herr
    · rw [List.erase_cons_head] at hstep
      exact .inr ⟨s', f', hrun, hstep, hstep.nonempty hne⟩

theorem findOrAddTryBlock_spec (h : Linked s f []) (tryStart tryEnd : ILUInt32) :
    findOrAddTryBlock s tryStart tryEnd = .error .branchErr ∨
      ∃ s' f' b, findOrAddTryBlock s tryStart tryEnd = .ok (s', b) ∧
        Step s f (tryStart ≤ tryEnd) [] s' f' ∧ f'.nodes ≠ [] := by
  rcases findOrAddTryBlock_cases s tryStart tryEnd with ⟨b, hb, hrun⟩ | hrun
  · refine .inr ⟨s, f, b, hrun, ⟨h, Grew.refl s, id, fun _ => id⟩, fun hnil => ?_⟩
    have hlen := h.nodes.length_eq
    rw [hnil, List.length_range] at hlen
    rw [← show 0 = s.numBlocks from hlen] at hb
    exact absurd hb (Nat.not_lt_zero b)
  · have hlinked : Linked (newTryBlock s tryStart tryEnd) f [s.numBlocks] :=
      (h.alloc .tryBlock tryStart tryEnd).of_blocks rfl rfl rfl
    have hgrew : Grew s (newTryBlock s tryStart tryEnd) :=
      ⟨(grew_alloc s .tryBlock tryStart tryEnd).numBlocks,
        (grew_alloc s .tryBlock tryStart tryEnd).offsets⟩
    have hnew : (newTryBlock s tryStart tryEnd).blocks s.numBlocks =
        ⟨.tryBlock, tryStart, tryEnd, none, none, none⟩ := blocks_alloc_new ..
    rcases linkTryBlock_spec hlinked with herr | ⟨s', f', hlink, hstep, hne⟩
    · rw [herr] at hrun
      exact .inl hrun
    · rw [hlink] at hrun
      rw [hnew] at hstep
      refine .inr ⟨s', f', _, hrun, ⟨hstep.linked, hgrew.trans hstep.grew, fun _ => hne,
        fun hadded hordered => hstep.ordered hadded (hordered.grew hgrew fun b hb => ?_)⟩, hne⟩
      exact h.mem_lt (List.mem_append_left _ hb)

/-- The clause has a filter. -/
def IsFilter (ex : ILException) : Prop :=
  ex.flags &&& (ilMetaExceptionFinally ||| ilMetaExceptionFault) = 0 ∧
    ex.flags &&& ilMetaExceptionFilter ≠ 0

instance : DecidablePred IsFilter := fun _ => inferInstanceAs (Decidable (_ ∧ _))

/-- The handler of a clause in the array, with its filter in the tree. -/
def newHandler (accessible : ILUInt32 → Bool) (s : ILCoderExceptions) (ex : ILException) :
    Except CoderError ILCoderExceptions :=
  let startOffset := ex.handlerOffset
  let endOffset := ex.handlerOffset + ex.handlerLength
  if ex.flags &&& (ilMetaExceptionFinally ||| ilMetaExceptionFault) ≠ 0 then
    if ex.flags &&& ilMetaExceptionFinally ≠ 0 then
      .ok (s.alloc .finallyBlock startOffset endOffset)
    else .ok (s.alloc .faultBlock startOffset endOffset)
  else if ex.flags &&& ilMetaExceptionFilter ≠ 0 then
    let handler := s.numBlocks
    let s := s.alloc .filteredCatch startOffset endOffset
    let filterBlock := s.numBlocks
    (insertExceptionBlock (s.alloc .filter ex.extraArg ex.handlerOffset) filterBlock).map
      fun s => { s with filterBlock := Function.update s.filterBlock handler (some filterBlock) }
  else if accessible ex.extraArg then .ok (s.alloc .catchBlock startOffset endOffset)
  else .error .typeErr

theorem ilCoderAddExceptionBlock_eq (accessible : ILUInt32 → Bool) (s : ILCoderExceptions)
    (ex : ILException) : ilCoderAddExceptionBlock accessible s ex =
      if ex.tryOffset + ex.tryLength < ex.tryOffset then .error .branchErr
      else findOrAddTryBlock s ex.tryOffset (ex.tryOffset + ex.tryLength) >>= fun found =>
        if ex.handlerOffset + ex.handlerLength < ex.handlerOffset then .error .branchErr
        else newHandler accessible found.1 ex >>= fun s =>
          (insertExceptionBlock s found.1.numBlocks).map
            fun s => addHandlerBlock s found.2 found.1.numBlocks := by
  unfold ilCoderAddExceptionBlock newHandler
  dsimp only
  by_cases htry : ex.tryOffset + ex.tryLength < ex.tryOffset
  · rw [if_pos htry, if_pos htry]
    rfl
  rw [if_neg htry, if_neg htry]
  refine bind_congr fun found => ?_
  obtain ⟨s, tryBlock⟩ := found
  dsimp only
  by_cases hhandler : ex.handlerOffset + ex.handlerLength < ex.handlerOffset
  · rw [if_pos hhandler, if_pos hhandler]
    rfl
  rw [if_neg hhandler, if_neg hhandler]
  by_cases hunfiltered : ex.flags &&& (ilMetaExceptionFinally ||| ilMetaExceptionFault) ≠ 0
  · rw [if_pos hunfiltered, if_pos hunfiltered]
    by_cases hfinally : ex.flags &&& ilMetaExceptionFinally ≠ 0
    · rw [if_pos hfinally, if_pos hfinally]
      exact bind_pure_comp (m := Except CoderError) _ (insertExceptionBlock _ _)
    · rw [if_neg hfinally, if_neg hfinally]
      exact bind_pure_comp (m := Except CoderError) _ (insertExceptionBlock _ _)
  rw [if_neg hunfiltered, if_neg hunfiltered]
  by_cases hfilter : ex.flags &&& ilMetaExceptionFilter ≠ 0
  · rw [if_pos hfilter, if_pos hfilter]
    show (insertExceptionBlock ((s.alloc .filteredCatch _ _).alloc .filter _ _) _ >>= _) = _
    cases insertExceptionBlock ((s.alloc .filteredCatch ex.handlerOffset
        (ex.handlerOffset + ex.handlerLength)).alloc .filter ex.extraArg ex.handlerOffset)
        (s.alloc .filteredCatch ex.handlerOffset
          (ex.handlerOffset + ex.handlerLength)).numBlocks with
    | error e => rfl
    | ok s' => exact bind_pure_comp (m := Except CoderError) _ (insertExceptionBlock _ _)
  rw [if_neg hfilter, if_neg hfilter]
  by_cases hcatch : accessible ex.extraArg = true
  · rw [if_pos hcatch, if_pos hcatch]
    exact bind_pure_comp (m := Except CoderError) _ (insertExceptionBlock _ _)
  · rw [if_neg hcatch, if_neg hcatch]
    rfl

theorem Linked.step_alloc (h : Linked s f []) (flags : HandlerType) (a e : ILUInt32)
    (added : Prop) : Step s f added [s.numBlocks] (s.alloc flags a e) f :=
  ⟨h.alloc flags a e, grew_alloc s flags a e, id,
    fun _ hordered => hordered.grew (grew_alloc s flags a e) fun _ hb =>
      h.mem_lt (List.mem_append_left _ hb)⟩

/-- A block that goes from `a` to `e`. -/
def HasBlock (s : ILCoderExceptions) (a e : ILUInt32) : Prop :=
  ∃ b < s.numBlocks, (s.blocks b).startOffset = a ∧ (s.blocks b).endOffset = e

theorem HasBlock.grew {a e : ILUInt32} (h : HasBlock s a e) (hgrew : Grew s s') :
    HasBlock s' a e := by
  obtain ⟨b, hb, hs, he⟩ := h
  obtain ⟨hs', he'⟩ := hgrew.offsets b hb
  exact ⟨b, hb.trans_le hgrew.numBlocks, hs'.trans hs, he'.trans he⟩

theorem filteredCatch_spec (h : Linked s f []) (hne : f.nodes ≠ []) (a e a' e' : ILUInt32) :
    let s1 := (s.alloc .filteredCatch a e).alloc .filter a' e'
    insertExceptionBlock s1 (s.numBlocks + 1) = .error .branchErr ∨
      ∃ s' f', insertExceptionBlock s1 (s.numBlocks + 1) = .ok s' ∧
        Step s f (a' ≤ e') [s.numBlocks] s' f' ∧ HasBlock s' a' e' ∧
        (s'.blocks s.numBlocks).startOffset = a ∧ (s'.blocks s.numBlocks).endOffset = e := by
  intro s1
  have hlinked : Linked s1 f [s.numBlocks, s.numBlocks + 1] :=
    (h.alloc .filteredCatch a e).alloc .filter a' e'
  have hgrew1 := grew_alloc (s.alloc .filteredCatch a e) .filter a' e'
  have hgrew : Grew s s1 := (grew_alloc s .filteredCatch a e).trans hgrew1
  have hhandler : s1.blocks s.numBlocks = ⟨.filteredCatch, a, e, none, none, none⟩ :=
    (blocks_alloc _ _ _ _ (Nat.lt_succ_self _)).trans (blocks_alloc_new ..)
  have hfilter : s1.blocks (s.numBlocks + 1) = ⟨.filter, a', e', none, none, none⟩ :=
    blocks_alloc_new ..
  have hmem : s.numBlocks + 1 ∈ [s.numBlocks, s.numBlocks + 1] := by simp
  rcases insertExceptionBlock_spec hlinked hmem hne with herr | ⟨s', f', hrun, hstep⟩
  · exact .inl herr
  · have herase : [s.numBlocks, s.numBlocks + 1].erase (s.numBlocks + 1) = [s.numBlocks] := by
      simp
    rw [herase, hfilter] at hstep
    obtain ⟨hs, he⟩ := hstep.grew.offsets s.numBlocks (show _ < s.numBlocks + 2 by omega)
    rw [hhandler] at hs he
    refine .inr ⟨s', f', hrun, ⟨hstep.linked, hgrew.trans hstep.grew, hstep.nonempty,
      fun hadded hordered => hstep.ordered hadded (hordered.grew hgrew fun b hb => ?_)⟩, ?_, hs, he⟩
    · exact h.mem_lt (List.mem_append_left _ hb)
    · have hblock : HasBlock s1 a' e' :=
        ⟨s.numBlocks + 1, Nat.lt_succ_self _, by rw [hfilter], by rw [hfilter]⟩
      exact hblock.grew hstep.grew

theorem newHandler_spec (accessible : ILUInt32 → Bool) (h : Linked s f []) (hne : f.nodes ≠ [])
    (ex : ILException) :
    newHandler accessible s ex = .error .branchErr ∨ newHandler accessible s ex = .error .typeErr ∨
      ∃ s' f', newHandler accessible s ex = .ok s' ∧
        Step s f (IsFilter ex → ex.extraArg ≤ ex.handlerOffset) [s.numBlocks] s' f' ∧
        (IsFilter ex → HasBlock s' ex.extraArg ex.handlerOffset) ∧
        (s'.blocks s.numBlocks).startOffset = ex.handlerOffset ∧
        (s'.blocks s.numBlocks).endOffset = ex.handlerOffset + ex.handlerLength := by
  have hplain : ∀ flags, ¬ IsFilter ex →
      let s1 := s.alloc flags ex.handlerOffset (ex.handlerOffset + ex.handlerLength)
      Step s f (IsFilter ex → ex.extraArg ≤ ex.handlerOffset) [s.numBlocks] s1 f ∧
        (IsFilter ex → HasBlock s1 ex.extraArg ex.handlerOffset) ∧
        (s1.blocks s.numBlocks).startOffset = ex.handlerOffset ∧
        (s1.blocks s.numBlocks).endOffset = ex.handlerOffset + ex.handlerLength := by
    intro flags hnot s1
    have hnew : s1.blocks s.numBlocks = ⟨flags, ex.handlerOffset, _, none, none, none⟩ :=
      blocks_alloc_new ..
    exact ⟨h.step_alloc .., fun hfilter => absurd hfilter hnot, by rw [hnew], by rw [hnew]⟩
  unfold newHandler
  dsimp only
  by_cases hunfiltered : ex.flags &&& (ilMetaExceptionFinally ||| ilMetaExceptionFault) ≠ 0
  · rw [if_pos hunfiltered]
    by_cases hfinally : ex.flags &&& ilMetaExceptionFinally ≠ 0
    · rw [if_pos hfinally]
      exact .inr (.inr ⟨_, _, rfl, hplain _ fun hfilter => hunfiltered hfilter.1⟩)
    · rw [if_neg hfinally]
      exact .inr (.inr ⟨_, _, rfl, hplain _ fun hfilter => hunfiltered hfilter.1⟩)
  rw [if_neg hunfiltered]
  by_cases hfilter : ex.flags &&& ilMetaExceptionFilter ≠ 0
  · rw [if_pos hfilter]
    have hIsFilter : IsFilter ex := ⟨not_not.1 hunfiltered, hfilter⟩
    rcases filteredCatch_spec h hne ex.handlerOffset (ex.handlerOffset + ex.handlerLength)
      ex.extraArg ex.handlerOffset with herr | ⟨s', f', hrun, hstep, hblock, hs, he⟩
    · rw [show (s.alloc _ _ _).numBlocks = s.numBlocks + 1 from rfl, herr]
      exact .inl rfl
    · rw [show (s.alloc _ _ _).numBlocks = s.numBlocks + 1 from rfl, hrun]
      exact .inr (.inr ⟨_, f', rfl, ⟨hstep.linked.of_blocks rfl rfl rfl,
        ⟨hstep.grew.1, hstep.grew.2⟩, hstep.nonempty, fun hadded => hstep.ordered (hadded hIsFilter)⟩,
        fun _ => hblock, hs, he⟩)
  · rw [if_neg hfilter]
    by_cases hcatch : accessible ex.extraArg = true
    · rw [if_pos hcatch]
      exact .inr (.inr ⟨_, _, rfl, hplain _ fun h => hfilter h.2⟩)
    · rw [if_neg hcatch]
      exact .inr (.inl rfl)

/-- One clause. -/
theorem ilCoderAddExceptionBlock_spec (accessible : ILUInt32 → Bool) (h : Linked s f [])
    (ex : ILException) :
    ilCoderAddExceptionBlock accessible s ex = .error .branchErr ∨
      ilCoderAddExceptionBlock accessible s ex = .error .typeErr ∨
      ∃ s' f', ilCoderAddExceptionBlock accessible s ex = .ok s' ∧
        Step s f (IsFilter ex → ex.extraArg ≤ ex.handlerOffset) [] s' f' ∧
        (IsFilter ex → HasBlock s' ex.extraArg ex.handlerOffset) := by
  rw [ilCoderAddExceptionBlock_eq]
  by_cases htry : ex.tryOffset + ex.tryLength < ex.tryOffset
  · rw [if_pos htry]
    exact .inl rfl
  rw [if_neg htry]
  rcases findOrAddTryBlock_spec h ex.tryOffset (ex.tryOffset + ex.tryLength)
    with herr | ⟨s1, f1, tryBlock, hfind, htryStep, hne⟩
  · rw [herr]
    exact .inl rfl
  rw [hfind, ok_bind]
  by_cases hhandler : ex.handlerOffset + ex.handlerLength < ex.handlerOffset
  · rw [if_pos hhandler]
    exact .inl rfl
  rw [if_neg hhandler]
  rcases newHandler_spec accessible htryStep.linked hne ex
    with herr | herr | ⟨s2, f2, hnew, hnewStep, hblock, hs, he⟩
  · rw [herr]
    exact .inl rfl
  · rw [herr]
    exact .inr (.inl rfl)
  rw [hnew, ok_bind]
  rcases insertExceptionBlock_spec hnewStep.linked List.mem_cons_self (hnewStep.nonempty hne)
    with herr | ⟨s3, f3, hinsert, hstep⟩
  · rw [herr]
    exact .inl rfl
  rw [hinsert]
  rw [hs, he, List.erase_cons_head] at hstep
  have hgrew : Grew s s3 := htryStep.grew.trans (hnewStep.grew.trans hstep.grew)
  refine .inr (.inr ⟨_, f3, rfl, ⟨hstep.linked.of_blocks rfl rfl rfl, ⟨hgrew.1, hgrew.2⟩,
    fun _ => hstep.nonempty (hnewStep.nonempty hne), fun hadded hordered => ?_⟩, fun hfilter => ?_⟩)
  · exact hstep.ordered (BitVec.not_lt.1 hhandler)
      (hnewStep.ordered hadded (htryStep.ordered (BitVec.not_lt.1 htry) hordered))
  · exact (hblock hfilter).grew ⟨hstep.grew.1, hstep.grew.2⟩

/-- All clauses. -/
theorem addExceptionBlocks_spec (accessible : ILUInt32 → Bool) (exceptions : List ILException)
    (h : Linked s f []) :
    exceptions.foldlM (ilCoderAddExceptionBlock accessible) s = .error .branchErr ∨
      exceptions.foldlM (ilCoderAddExceptionBlock accessible) s = .error .typeErr ∨
      ∃ s' f', exceptions.foldlM (ilCoderAddExceptionBlock accessible) s = .ok s' ∧
        Step s f (∀ ex ∈ exceptions, IsFilter ex → ex.extraArg ≤ ex.handlerOffset) [] s' f' ∧
        (∀ ex ∈ exceptions, IsFilter ex → HasBlock s' ex.extraArg ex.handlerOffset) := by
  induction exceptions generalizing s f with
  | nil => exact .inr (.inr ⟨s, f, rfl, ⟨h, Grew.refl s, id, fun _ => id⟩,
      fun ex hex => absurd hex List.not_mem_nil⟩)
  | cons ex exceptions ih =>
    rw [List.foldlM_cons]
    rcases ilCoderAddExceptionBlock_spec accessible h ex
      with herr | herr | ⟨s1, f1, hadd, hstep, hblock⟩
    · rw [herr]
      exact .inl rfl
    · rw [herr]
      exact .inr (.inl rfl)
    rw [hadd, ok_bind]
    rcases ih hstep.linked with herr | herr | ⟨s2, f2, hrun, hsteps, hblocks⟩
    · exact .inl herr
    · exact .inr (.inl herr)
    · refine .inr (.inr ⟨s2, f2, hrun, ⟨hsteps.linked, hstep.grew.trans hsteps.grew,
        fun hne => hsteps.nonempty (hstep.nonempty hne), fun hadded hordered => ?_⟩, ?_⟩)
      · exact hsteps.ordered (fun ex' hex' => hadded ex' (List.mem_cons_of_mem _ hex'))
          (hstep.ordered (hadded ex List.mem_cons_self) hordered)
      · intro ex' hex' hfilter
        rcases List.mem_cons.1 hex' with rfl | hex'
        · exact (hblock hfilter).grew hsteps.grew
        · exact hblocks ex' hex' hfilter

end Pnet.Engine.Coder
