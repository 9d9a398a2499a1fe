import Pnet.Engine.ExceptionFind
import Pnet.Engine.Leave

/-! A leave runs the finally handlers of the try blocks that it leaves, and takes the words of the
catch handlers off the stack, innermost first. -/
namespace Pnet.Engine.Coder
open Pnet.Lib Pnet.Image

/-! ### The blocks that are left -/

/-- A walk along the parents from one block to another. -/
def Climbs (s : ILCoderExceptions) : Option Nat → List Nat → Option Nat → Prop
  | start, [], stop => start = stop
  | start, b :: bs, stop => start = some b ∧ Climbs s (s.blocks b).parent bs stop

section Climbs

variable {s : ILCoderExceptions} {start stop : Option Nat} {b c : Nat} {bs : List Nat}

theorem Climbs.snoc (h : Climbs s start bs (some c)) :
    Climbs s start (bs ++ [c]) (s.blocks c).parent := by
  induction bs generalizing start with
  | nil => exact ⟨h, rfl⟩
  | cons b bs ih => exact ⟨h.1, ih h.2⟩

/-- From each block of a forest there is a walk out of it. -/
theorem Holds.climbs {f : Forest Nat} {parent : Option Nat} (h : Holds s.blocks parent start f)
    (hnodup : f.nodes.Nodup) (hb : b ∈ f.nodes) :
    ∃ bs, Climbs s (some b) bs parent ∧ bs.Nodup ∧ ∀ a ∈ bs, a ∈ f.nodes := by
  induction f generalizing parent start with
  | nil => cases hb
  | cons c children rest ihc ihr =>
    obtain ⟨-, hparent, hchildren, hrest⟩ := h
    have hnodup' := List.nodup_cons.1 hnodup
    rcases List.mem_cons.1 hb with rfl | hb
    · exact ⟨[b], ⟨rfl, hparent⟩, List.nodup_singleton b, fun a ha =>
        List.mem_singleton.1 ha ▸ List.mem_cons_self⟩
    rcases List.mem_append.1 hb with hb | hb
    · obtain ⟨bs, hclimbs, hbs, hsub⟩ := ihc hchildren hnodup'.2.of_append_left hb
      refine ⟨bs ++ [c], hparent ▸ hclimbs.snoc, ?_, fun a ha => ?_⟩
      · refine List.nodup_append.2 ⟨hbs, List.nodup_singleton c, fun a ha d hd heq => ?_⟩
        rw [List.mem_singleton.1 hd] at heq
        exact hnodup'.1 (List.mem_append_left _ (heq ▸ hsub a ha))
      · rcases List.mem_append.1 ha with ha | ha
        · exact List.mem_cons_of_mem _ (List.mem_append_left _ (hsub a ha))
        · exact List.mem_singleton.1 ha ▸ List.mem_cons_self
    · obtain ⟨bs, hclimbs, hbs, hsub⟩ := ihr hrest hnodup'.2.of_append_right hb
      exact ⟨bs, hclimbs, hbs, fun a ha =>
        List.mem_cons_of_mem _ (List.mem_append_right _ (hsub a ha))⟩

theorem Climbs.encloses (h : Climbs s (some b) bs stop) {a : Nat} (ha : a ∈ bs) :
    Encloses s a b := by
  induction bs generalizing b with
  | nil => cases ha
  | cons c bs ih =>
    obtain rfl := Option.some.inj h.1
    rcases List.mem_cons.1 ha with rfl | ha
    · exact Relation.ReflTransGen.refl
    cases hparent : (s.blocks b).parent with
    | none =>
      have hrest := h.2
      rw [hparent] at hrest
      cases bs with
      | nil => cases ha
      | cons d bs => cases hrest.1
    | some p =>
      have hrest := h.2
      rw [hparent] at hrest
      exact (ih hrest ha).head hparent

theorem Climbs.pairwise (h : Climbs s start bs stop) :
    bs.Pairwise fun a b => Encloses s b a := by
  induction bs generalizing start with
  | nil => exact List.Pairwise.nil
  | cons c bs ih =>
    have hfirst : Climbs s (some c) (c :: bs) stop := ⟨rfl, h.2⟩
    exact List.pairwise_cons.2
      ⟨fun a ha => hfirst.encloses (List.mem_cons_of_mem c ha), ih h.2⟩

/-- A walk to the end meets every block around the first one. -/
theorem Climbs.mem_of_encloses (h : Climbs s (some b) bs none) {a : Nat}
    (ha : Encloses s a b) : a ∈ bs := by
  induction ha using Relation.ReflTransGen.head_induction_on generalizing bs with
  | refl =>
    cases bs with
    | nil => cases h
    | cons c bs => exact Option.some.inj h.1 ▸ List.mem_cons_self
  | head hparent _ ih =>
    cases bs with
    | nil => cases h
    | cons c bs =>
      obtain rfl := Option.some.inj h.1
      have hrest := h.2
      rw [hparent] at hrest
      exact List.mem_cons_of_mem _ (ih hrest)

end Climbs

/-! ### The code for the blocks -/

section Code

variable {s : ILCoderExceptions}

/-- The verifier lets a leave go out of such a block. -/
def Leavable (s : ILCoderExceptions) (block : Nat) : Prop :=
  (s.blocks block).flags = .tryBlock ∨ (s.blocks block).flags = .catchBlock ∨
    (s.blocks block).flags = .filteredCatch

instance (s : ILCoderExceptions) (block : Nat) : Decidable (Leavable s block) :=
  inferInstanceAs (Decidable (_ ∨ _))

def blockCode (s : ILCoderExceptions) (block : Nat) : List CVMInsn :=
  if (s.blocks block).flags = .tryBlock then
    (finallyHandlers s block).map fun handler => .jsr handler (s.blocks handler).startOffset
  else [.leaveCatch]

theorem leaveBlock_eq (s : ILCoderExceptions) (block : Nat) :
    leaveBlock s block = if Leavable s block then .ok (blockCode s block) else .error .branch := by
  cases hflags : (s.blocks block).flags <;> simp [leaveBlock, Leavable, blockCode, hflags]

/-- The blocks of a walk up to the first one around the destination. -/
def leftOf (s : ILCoderExceptions) (dest : ILUInt32) (bs : List Nat) : List Nat :=
  bs.takeWhile fun b => !decide (Contains s b dest)

theorem leaveFrom_eq (dest : ILUInt32) {start : Option Nat} {bs : List Nat} {fuel : Nat}
    (h : Climbs s start bs none) (hfuel : bs.length ≤ fuel) :
    leaveFrom s dest fuel start =
      if ∀ b ∈ leftOf s dest bs, Leavable s b then .ok ((leftOf s dest bs).flatMap (blockCode s))
      else .error .branch := by
  induction bs generalizing start fuel with
  | nil =>
    obtain rfl : start = none := h
    cases fuel <;> simp [leaveFrom, leftOf]
  | cons b bs ih =>
    obtain ⟨rfl, hrest⟩ := h
    cases fuel with
    | zero => cases hfuel
    | succ fuel =>
      rw [leaveFrom]
      by_cases hin : Contains s b dest
      · simp [leftOf, hin]
      have hleft : leftOf s dest (b :: bs) = b :: leftOf s dest bs := by
        simp [leftOf, hin]
      rw [if_neg hin, leaveBlock_eq, ih hrest (Nat.le_of_succ_le_succ hfuel), hleft]
      by_cases hb : Leavable s b
      · by_cases hbs : ∀ b ∈ leftOf s dest bs, Leavable s b
        · rw [if_pos hb, if_pos hbs, if_pos (List.forall_mem_cons.2 ⟨hb, hbs⟩)]
          rfl
        · rw [if_pos hb, if_neg hbs, if_neg fun hall => hbs (List.forall_mem_cons.1 hall).2]
          rfl
      · rw [if_neg hb, if_neg fun hall => hb (List.forall_mem_cons.1 hall).1]
        rfl

end Code

/-! ### The tree -/

section Tree

variable {s : ILCoderExceptions} {codeLen : ILUInt32}

theorem TreeSound.of_encloses (h : TreeSound s codeLen) {a b : Nat} (hab : Encloses s a b)
    (hb : b < s.numBlocks) :
    a < s.numBlocks ∧ ∀ offset, Contains s b offset → Contains s a offset := by
  induction hab with
  | refl => exact ⟨hb, fun _ hin => hin⟩
  | tail _ hparent ih =>
    obtain ⟨hc, hin⟩ := ih
    obtain ⟨hp, hstart, hend⟩ := h.children _ hc _ hparent
    refine ⟨hp, fun offset hoffset => ?_⟩
    have hcin := hin offset hoffset
    rw [Contains, BitVec.le_def, BitVec.lt_def] at hcin ⊢
    exact ⟨(BitVec.le_def.1 hstart).trans hcin.1, hcin.2.trans_le (BitVec.le_def.1 hend)⟩

/-- The blocks that a leave from one offset to another goes out of, innermost first. -/
structure Left (s : ILCoderExceptions) (offset dest : ILUInt32) (left : List Nat) : Prop where
  nodup : left.Nodup
  mem_iff : ∀ b, b ∈ left ↔ b < s.numBlocks ∧ Contains s b offset ∧ ¬Contains s b dest
  innermost : left.Pairwise fun a b => Encloses s b a

theorem takeWhile_eq_filter {α : Type} {p : α → Bool} {l : List α}
    (h : l.Pairwise fun a b => p b → p a) : l.takeWhile p = l.filter p := by
  induction l with
  | nil => rfl
  | cons a l ih =>
    obtain ⟨ha, hl⟩ := List.pairwise_cons.1 h
    cases hp : p a with
    | true => rw [List.takeWhile_cons_of_pos hp, List.filter_cons_of_pos hp, ih hl]
    | false =>
      have hnone : l.filter p = [] := by
        rw [List.filter_eq_nil_iff]
        intro b hb hpb
        rw [ha b hb hpb] at hp
        cases hp
      rw [List.takeWhile_cons_of_neg (by simp [hp]), List.filter_cons_of_neg (by simp [hp]), hnone]

/-- The walk that starts at the innermost block finds what is left. -/
theorem TreeSound.leaveFrom_eq (h : TreeSound s codeLen) (offset dest : ILUInt32) :
    ∃ block left, ilCoderFindExceptionBlock s offset = .ok block ∧ Left s offset dest left ∧
      leaveFrom s dest s.numBlocks block =
        if ∀ b ∈ left, Leavable s b then .ok (left.flatMap (blockCode s))
        else .error .branch := by
  obtain ⟨block, hfind, hsome, hnone⟩ := h.found offset
  cases block with
  | none =>
    refine ⟨none, [], hfind, ⟨List.nodup_nil, fun b => ?_, List.Pairwise.nil⟩, ?_⟩
    · exact ⟨fun hb => absurd hb List.not_mem_nil, fun hb => absurd hb.2.1 (hnone rfl b hb.1)⟩
    · have hnil : Climbs s none [] none := rfl
      exact Coder.leaveFrom_eq dest hnil (Nat.zero_le _)
  | some b =>
    obtain ⟨hb, hin, haround⟩ := hsome b rfl
    obtain ⟨f, hholds, hperm⟩ := h.linked
    have hnodup : f.nodes.Nodup := hperm.nodup_iff.2 List.nodup_range
    obtain ⟨bs, hclimbs, hbs, hsub⟩ :=
      hholds.climbs hnodup (hperm.symm.subset (List.mem_range.2 hb))
    have hlength : bs.length ≤ s.numBlocks := by
      have := (List.subperm_of_subset hbs fun a ha => hperm.subset (hsub a ha)).length_le
      rwa [List.length_range] at this
    refine ⟨some b, leftOf s dest bs, hfind, ?_, Coder.leaveFrom_eq dest hclimbs hlength⟩
    have hclosed : bs.Pairwise fun a c =>
        (!decide (Contains s c dest)) = true → (!decide (Contains s a dest)) = true := by
      refine hclimbs.pairwise.imp_of_mem fun {a c} ha _ hac hc => ?_
      have hlt := (h.of_encloses (hclimbs.encloses ha) hb).1
      have hcontains := (h.of_encloses hac hlt).2 dest
      simp only [Bool.not_eq_true', decide_eq_false_iff_not] at hc ⊢
      exact fun hin => hc (hcontains hin)
    have hleft : leftOf s dest bs = bs.filter fun b => !decide (Contains s b dest) :=
      takeWhile_eq_filter hclosed
    rw [hleft]
    refine ⟨hbs.filter _, fun a => ?_, hclimbs.pairwise.filter _⟩
    rw [List.mem_filter, Bool.not_eq_true', decide_eq_false_iff_not]
    constructor
    · rintro ⟨ha, hdest⟩
      obtain ⟨hlt, hcontains⟩ := h.of_encloses (hclimbs.encloses ha) hb
      exact ⟨hlt, hcontains offset hin, hdest⟩
    · rintro ⟨hlt, hoffset, hdest⟩
      exact ⟨hclimbs.mem_of_encloses (haround a hlt hoffset.1 hoffset.2), hdest⟩

end Tree

/-! ### Handlers -/

/-- Each handler belongs to one try block, in whose list it stands once. -/
structure HandlersSound (s : ILCoderExceptions) : Prop where
  nodup : ∀ b, (s.handlers b).Nodup
  disjoint : ∀ a b h, h ∈ s.handlers a → h ∈ s.handlers b → a = b
  lt : ∀ b, ∀ h ∈ s.handlers b, h < s.numBlocks

section Handlers

variable {s s' : ILCoderExceptions}

/-- No list of handlers changes while blocks are put in place. -/
structure KeepsHandlers (s s' : ILCoderExceptions) : Prop where
  handlers : s'.handlers = s.handlers
  numBlocks : s.numBlocks ≤ s'.numBlocks

theorem KeepsHandlers.refl (s : ILCoderExceptions) : KeepsHandlers s s := ⟨rfl, Nat.le_refl _⟩

theorem KeepsHandlers.trans {s'' : ILCoderExceptions} (h : KeepsHandlers s s')
    (h' : KeepsHandlers s' s'') : KeepsHandlers s s'' :=
  ⟨h'.handlers.trans h.handlers, h.numBlocks.trans h'.numBlocks⟩

theorem KeepsHandlers.sound (h : KeepsHandlers s s') (hs : HandlersSound s) :
    HandlersSound s' := by
  obtain ⟨hhandlers, hnum⟩ := h
  refine ⟨?_, ?_, fun b handler hmem => ?_⟩
  · rw [hhandlers]
    exact hs.nodup
  · rw [hhandlers]
    exact hs.disjoint
  · rw [hhandlers] at hmem
    exact (hs.lt b handler hmem).trans_le hnum

theorem keeps_nestFrom {block fuel last : Nat} {next : Option Nat}
    {result : ILCoderExceptions × Nat} (h : nestFrom s block fuel last next = .ok result) : KeepsHandlers s result.1 := by
  induction fuel generalizing s last next with
  | zero =>
    cases next with
    | none =>
      obtain rfl := Except.ok.inj h
      exact .refl s
    | some next => cases h
  | succ fuel ih =>
    cases next with
    | none =>
      obtain rfl := Except.ok.inj h
      exact .refl s
    | some next =>
      rw [nestFrom] at h
      split_ifs at h with hbehind hnested
      · obtain rfl := Except.ok.inj h
        exact .refl s
      · have hset : KeepsHandlers s (s.setParent next (some block)) := ⟨rfl, Nat.le_refl _⟩
        exact hset.trans (ih h)

theorem keeps_nestExceptionBlocks {block first : Nat} {prevEB : Option Nat}
    (h : nestExceptionBlocks s block prevEB first = .ok s') : KeepsHandlers s s' := by
  unfold nestExceptionBlocks at h
  obtain ⟨⟨s1, last⟩, hnest, h⟩ := bind_ok h
  have hnested := keeps_nestFrom hnest
  have hfrom : KeepsHandlers s s1 := ⟨hnested.handlers, hnested.numBlocks⟩
  refine hfrom.trans ?_
  dsimp only at h
  split at h <;> obtain rfl := Except.ok.inj h <;> exact ⟨rfl, Nat.le_refl _⟩

theorem keeps_insertBefore (s : ILCoderExceptions) (block : Nat) (prevEB : Option Nat)
    (checkEB : Nat) : KeepsHandlers s (insertBefore s block prevEB checkEB) := by
  unfold insertBefore
  split <;> exact ⟨rfl, Nat.le_refl _⟩

theorem keeps_insertFrom {block fuel check : Nat} {prevEB : Option Nat}
    (h : insertFrom s block fuel prevEB check = .ok s') : KeepsHandlers s s' := by
  induction fuel generalizing prevEB check with
  | zero => cases h
  | succ fuel ih =>
    rw [insertFrom] at h
    split_ifs at h with hbefore hbehind hencloses hinside
    · obtain rfl := Except.ok.inj h
      exact keeps_insertBefore s block prevEB check
    · split at h
      · exact ih h
      · obtain rfl := Except.ok.inj h
        exact ⟨rfl, Nat.le_refl _⟩
    · exact keeps_nestExceptionBlocks h
    · split at h
      · exact ih h
      · obtain rfl := Except.ok.inj h
        exact ⟨rfl, Nat.le_refl _⟩

theorem keeps_insertExceptionBlock {block : Nat} (h : insertExceptionBlock s block = .ok s') :
    KeepsHandlers s s' := by
  unfold insertExceptionBlock at h
  split at h
  · obtain rfl := Except.ok.inj h
    exact .refl s
  · exact keeps_insertFrom h

theorem handlers_newTryBlock (s : ILCoderExceptions) (tryStart tryEnd : ILUInt32) (b : Nat) :
    (newTryBlock s tryStart tryEnd).handlers b = if b = s.numBlocks then [] else s.handlers b :=
  Function.update_apply ..

theorem handlers_addHandlerBlock (s : ILCoderExceptions) (tryBlock handler b : Nat) :
    (addHandlerBlock s tryBlock handler).handlers b =
      if b = tryBlock then s.handlers tryBlock ++ [handler] else s.handlers b :=
  Function.update_apply ..

theorem HandlersSound.newTryBlock (hs : HandlersSound s) (tryStart tryEnd : ILUInt32) :
    HandlersSound (newTryBlock s tryStart tryEnd) := by
  have hmem {b handler : Nat} (hh : handler ∈ (Coder.newTryBlock s tryStart tryEnd).handlers b) :
      handler ∈ s.handlers b := by
    rw [handlers_newTryBlock] at hh
    split at hh
    · cases hh
    · exact hh
  refine ⟨fun b => ?_, fun a b handler ha hb => hs.disjoint a b handler (hmem ha) (hmem hb),
    fun b handler hh => (hs.lt b handler (hmem hh)).trans (Nat.lt_succ_self _)⟩
  rw [handlers_newTryBlock]
  split
  · exact List.nodup_nil
  · exact hs.nodup b

theorem HandlersSound.findOrAddTryBlock (hs : HandlersSound s) {tryStart tryEnd : ILUInt32}
    {found : ILCoderExceptions × Nat}
    (h : findOrAddTryBlock s tryStart tryEnd = .ok found) : HandlersSound found.1 := by
  rcases findOrAddTryBlock_cases s tryStart tryEnd with ⟨b, -, hrun⟩ | hrun
  · rw [hrun] at h
    obtain rfl := Except.ok.inj h
    exact hs
  · rw [hrun] at h
    cases hlink : linkTryBlock (Coder.newTryBlock s tryStart tryEnd) s.numBlocks with
    | error e =>
      rw [hlink] at h
      cases h
    | ok s1 =>
      rw [hlink] at h
      obtain rfl := Except.ok.inj h
      refine KeepsHandlers.sound ?_ (hs.newTryBlock tryStart tryEnd)
      unfold linkTryBlock at hlink
      split at hlink
      · obtain rfl := Except.ok.inj hlink
        exact ⟨rfl, Nat.le_refl _⟩
      · exact keeps_insertExceptionBlock hlink

theorem keeps_newHandler {accessible : ILUInt32 → Bool} {ex : ILException}
    (h : newHandler accessible s ex = .ok s') :
    s'.handlers = s.handlers ∧ s.numBlocks < s'.numBlocks := by
  unfold newHandler at h
  dsimp only at h
  split_ifs at h with hunfiltered hfinally hfilter haccessible
  · obtain rfl := Except.ok.inj h
    exact ⟨rfl, Nat.lt_succ_self _⟩
  · obtain rfl := Except.ok.inj h
    exact ⟨rfl, Nat.lt_succ_self _⟩
  · generalize hinsert : insertExceptionBlock _ _ = result at h
    cases result with
    | error e => cases h
    | ok s1 =>
      obtain rfl := Except.ok.inj h
      have hkeeps := keeps_insertExceptionBlock hinsert
      exact ⟨hkeeps.handlers, (Nat.lt_add_of_pos_right (by decide : 0 < 2)).trans_le
        hkeeps.numBlocks⟩
  · obtain rfl := Except.ok.inj h
    exact ⟨rfl, Nat.lt_succ_self _⟩

/-- A handler that no list has is put into one. -/
theorem HandlersSound.addHandlerBlock (hs : HandlersSound s) {tryBlock handler : Nat}
    (hnew : ∀ b, handler ∉ s.handlers b) (hlt : handler < s.numBlocks) :
    HandlersSound (addHandlerBlock s tryBlock handler) := by
  have hmem {b h : Nat} (hh : h ∈ (Coder.addHandlerBlock s tryBlock handler).handlers b) :
      h ∈ s.handlers b ∨ (b = tryBlock ∧ h = handler) := by
    rw [handlers_addHandlerBlock] at hh
    split at hh
    case isTrue hb =>
      rw [hb]
      exact (List.mem_append.1 hh).imp_right fun hh => ⟨rfl, List.mem_singleton.1 hh⟩
    case isFalse => exact .inl hh
  refine ⟨fun b => ?_, fun a b h ha hb => ?_, fun b h hh => ?_⟩
  · rw [handlers_addHandlerBlock]
    split
    · refine List.nodup_append.2
        ⟨hs.nodup tryBlock, List.nodup_singleton _, fun x hx y hy heq => ?_⟩
      rw [heq, List.mem_singleton.1 hy] at hx
      exact hnew tryBlock hx
    · exact hs.nodup b
  · rcases hmem ha with ha' | ⟨hat, hah⟩
    · rcases hmem hb with hb' | ⟨-, hbh⟩
      · exact hs.disjoint a b h ha' hb'
      · exact absurd (hbh ▸ ha') (hnew a)
    · rcases hmem hb with hb' | ⟨hbt, -⟩
      · exact absurd (hah ▸ hb') (hnew b)
      · exact hat.trans hbt.symm
  · rcases hmem hh with hh | ⟨-, rfl⟩
    · exact hs.lt b h hh
    · exact hlt

theorem HandlersSound.ilCoderAddExceptionBlock (hs : HandlersSound s)
    {accessible : ILUInt32 → Bool} {ex : ILException}
    (h : ilCoderAddExceptionBlock accessible s ex = .ok s') : HandlersSound s' := by
  rw [ilCoderAddExceptionBlock_eq] at h
  by_cases htry : ex.tryOffset + ex.tryLength < ex.tryOffset
  · rw [if_pos htry] at h
    cases h
  rw [if_neg htry] at h
  obtain ⟨found, hfound, h⟩ := bind_ok h
  have hfoundSound := hs.findOrAddTryBlock hfound
  by_cases hhandler : ex.handlerOffset + ex.handlerLength < ex.handlerOffset
  · rw [if_pos hhandler] at h
    cases h
  rw [if_neg hhandler] at h
  obtain ⟨s1, hnew, h⟩ := bind_ok h
  obtain ⟨hhandlers, hnum⟩ := keeps_newHandler hnew
  generalize hinsert : insertExceptionBlock s1 found.1.numBlocks = result at h
  cases result with
  | error e => cases h
  | ok s2 =>
    obtain rfl := Except.ok.inj h
    have hkeeps : KeepsHandlers found.1 s2 :=
      KeepsHandlers.trans ⟨hhandlers, hnum.le⟩ (keeps_insertExceptionBlock hinsert)
    refine (hkeeps.sound hfoundSound).addHandlerBlock (fun b hb => ?_)
      (hnum.trans_le (keeps_insertExceptionBlock hinsert).numBlocks)
    rw [hkeeps.handlers] at hb
    exact absurd (hfoundSound.lt b _ hb) (Nat.lt_irrefl _)

theorem HandlersSound.foldlM {accessible : ILUInt32 → Bool} {exceptions : List ILException}
    (hs : HandlersSound s)
    (h : exceptions.foldlM (Coder.ilCoderAddExceptionBlock accessible) s = .ok s') :
    HandlersSound s' := by
  induction exceptions generalizing s with
  | nil =>
    obtain rfl := Except.ok.inj h
    exact hs
  | cons ex exceptions ih =>
    rw [List.foldlM_cons] at h
    obtain ⟨s1, hadd, h⟩ := bind_ok h
    exact ih (hs.ilCoderAddExceptionBlock hadd) h

/-- A method that is accepted has a tree and lists of handlers as they should be, if each of its
filters starts in front of its handler. -/
theorem setupExceptions_tree {accessible : ILUInt32 → Bool} {codeLen : ILUInt32}
    {exceptions : List ILException} (h : setupExceptions accessible codeLen exceptions = .ok s)
    (hfilters : ∀ ex ∈ exceptions, IsFilter ex → ex.extraArg ≤ ex.handlerOffset) :
    TreeSound s codeLen ∧ HandlersSound s := by
  constructor
  · rcases setupExceptions_spec accessible codeLen exceptions
      with herr | herr | ⟨s', f, hrun, hlinked, hwithin, -⟩
    · rw [herr] at h
      cases h
    · rw [herr] at h
      cases h
    · rw [hrun] at h
      obtain rfl := Except.ok.inj h
      exact treeSound_of_within hlinked (hwithin hfilters)
  · unfold setupExceptions at h
    obtain ⟨s1, hfold, h⟩ := bind_ok h
    obtain ⟨-, -, h⟩ := bind_ok h
    obtain rfl := Except.ok.inj h
    refine HandlersSound.foldlM ⟨fun _ => List.nodup_nil, fun _ _ _ ha => ?_, fun _ _ ha => ?_⟩
      hfold
    · exact absurd ha List.not_mem_nil
    · exact absurd ha List.not_mem_nil

end Handlers

/-! ### Execution -/

section Execution

variable {Word World : Type} [DecidableEq Word] {thread : CVMThread Word World}
  {s : ILCoderExceptions} {code : List CVMInsn} {stack words frame : List Word} {world : World}

/-- The finally handlers of the try blocks among those that are left. -/
def handlersRun (s : ILCoderExceptions) (left : List Nat) : List Nat :=
  (left.filter fun b => (s.blocks b).flags = .tryBlock).flatMap (finallyHandlers s)

/-- The catch handlers among the blocks that are left. -/
def catchesLeft (s : ILCoderExceptions) (left : List Nat) : List Nat :=
  left.filter fun b => ¬(s.blocks b).flags = .tryBlock

/-- What is left of the thread after the handlers. -/
def runHandlers (thread : CVMThread Word World) (s : ILCoderExceptions) (handlers : List Nat)
    (world : World) : World :=
  handlers.foldl (fun world handler => thread.handler (s.blocks handler).startOffset world) world

def LeaveEvent.ranBlock : LeaveEvent Word → Option Nat
  | .ran block => some block
  | .took _ => none

def LeaveEvent.tookWord : LeaveEvent Word → Option Word
  | .ran _ => none
  | .took word => some word

/-- No word says that an abort is to go on. -/
def NotAborted (thread : CVMThread Word World) (words : List Word) : Prop :=
  ∀ word ∈ words, word = thread.invalidPc → ∀ world, thread.aborting world = false

/-- The stack is emptied item by item. -/
theorem execLeave_pops (w : CVMWords) {items : List ILEngineStackItem}
    (hitems : ∀ item ∈ items, item.engineType ≠ .CM)
    (hwords : words.length = computeStackSize w items) :
    execLeave thread (items.flatMap (cvmCoderPop w) ++ code) ⟨words ++ stack, world⟩ =
      execLeave thread code ⟨stack, world⟩ := by
  induction items generalizing words with
  | nil =>
    obtain rfl := List.eq_nil_of_length_eq_zero hwords
    rfl
  | cons item items ih =>
    have hsum : words.length = itemSize w item + computeStackSize w items := by
      rw [hwords, computeStackSize, List.map_cons, List.sum_cons]
      rfl
    have hrest : (words.drop (itemSize w item)).length = computeStackSize w items := by
      rw [List.length_drop, hsum, Nat.add_sub_cancel_left]
    have hnext := ih (fun item hitem => hitems item (List.mem_cons_of_mem _ hitem)) hrest
    have hle : itemSize w item ≤ words.length := by omega
    have hpop : execLeave thread (.pop (itemSize w item) ::
        (items.flatMap (cvmCoderPop w) ++ code)) ⟨words ++ stack, world⟩ =
        execLeave thread code ⟨stack, world⟩ := by
      rw [execLeave, if_pos (by rw [List.length_append]; omega),
        List.drop_append_of_le_length hle, hnext]
    rw [List.flatMap_cons, List.append_assoc]
    cases htype : item.engineType with
    | CM => exact absurd htype (hitems item List.mem_cons_self)
    | Invalid =>
      have hzero : itemSize w item = 0 := by simp [itemSize, htype]
      rw [hzero, List.drop_zero] at hnext
      simpa [cvmCoderPop, htype] using hnext
    | _ => simpa [cvmCoderPop, itemSize, htype] using hpop

theorem execLeave_calls (handlers : List Nat) (code : List CVMInsn) (world : World) :
    execLeave thread (handlers.map (fun handler => .jsr handler (s.blocks handler).startOffset) ++
        code) ⟨stack, world⟩ =
      (execLeave thread code ⟨stack, runHandlers thread s handlers world⟩).map
        fun (events, outcome) => (handlers.map .ran ++ events, outcome) := by
  induction handlers generalizing world with
  | nil =>
    simp [runHandlers]
  | cons handler handlers ih =>
    rw [List.map_cons, List.cons_append, execLeave, List.tail_cons, ih, Option.map_map]
    rfl

/-- What comes of the code for the blocks that are left. -/
structure Leaves (thread : CVMThread Word World) (s : ILCoderExceptions) (left : List Nat)
    (dest : ILUInt32) (words frame : List Word) (world : World)
    (events : List (LeaveEvent Word)) (outcome : LeaveOutcome Word World) : Prop where
  ran : events.filterMap LeaveEvent.ranBlock <+: handlersRun s left
  took : events.filterMap LeaveEvent.tookWord <+: words
  whole : NotAborted thread words →
    events.filterMap LeaveEvent.ranBlock = handlersRun s left ∧
      events.filterMap LeaveEvent.tookWord = words ∧
      outcome = .continuesAt dest ⟨frame, runHandlers thread s (handlersRun s left) world⟩

omit [DecidableEq Word] in
theorem ranBlock_calls (handlers : List Nat) :
    (handlers.map (@LeaveEvent.ran Word)).filterMap LeaveEvent.ranBlock = handlers := by
  induction handlers with
  | nil => rfl
  | cons handler handlers ih => exact congrArg (handler :: ·) ih

omit [DecidableEq Word] in
theorem tookWord_calls (handlers : List Nat) :
    (handlers.map (@LeaveEvent.ran Word)).filterMap LeaveEvent.tookWord = [] := by
  induction handlers with
  | nil => rfl
  | cons handler handlers ih => exact ih

theorem execLeave_left (dest : ILUInt32) {left : List Nat} (hleft : ∀ b ∈ left, Leavable s b)
    (hwords : words.length = (catchesLeft s left).length) :
    ∃ events outcome, execLeave thread (left.flatMap (blockCode s) ++ [.br dest])
        ⟨words ++ frame, world⟩ = some (events, outcome) ∧
      Leaves thread s left dest words frame world events outcome := by
  induction left generalizing words world with
  | nil =>
    obtain rfl := List.eq_nil_of_length_eq_zero hwords
    exact ⟨[], _, rfl, List.nil_prefix, List.nil_prefix, fun _ => ⟨rfl, rfl, rfl⟩⟩
  | cons b left ih =>
    have hrest := fun c hc => hleft c (List.mem_cons_of_mem b hc)
    rw [List.flatMap_cons, List.append_assoc]
    by_cases htry : (s.blocks b).flags = .tryBlock
    · have hcatches : catchesLeft s (b :: left) = catchesLeft s left := by
        simp [catchesLeft, htry]
      have hhandlers : handlersRun s (b :: left) = finallyHandlers s b ++ handlersRun s left := by
        simp [handlersRun, htry]
      rw [hcatches] at hwords
      obtain ⟨events, outcome, hexec, hran, htook, hwhole⟩ :=
        @ih words (runHandlers thread s (finallyHandlers s b) world) hrest hwords
      refine ⟨(finallyHandlers s b).map .ran ++ events, outcome, ?_, ?_, ?_, ?_⟩
      · rw [blockCode, if_pos htry, execLeave_calls, hexec]
        rfl
      · rw [List.filterMap_append, ranBlock_calls, hhandlers]
        exact (List.prefix_append_right_inj _).2 hran
      · rw [List.filterMap_append, tookWord_calls]
        exact htook
      · intro hnot
        obtain ⟨hran, htook, houtcome⟩ := hwhole hnot
        refine ⟨?_, ?_, ?_⟩
        · rw [List.filterMap_append, ranBlock_calls, hran, hhandlers]
        · rw [List.filterMap_append, tookWord_calls, htook, List.nil_append]
        · rw [houtcome, hhandlers, runHandlers, runHandlers, runHandlers, List.foldl_append]
    · have hcatches : catchesLeft s (b :: left) = b :: catchesLeft s left := by
        simp [catchesLeft, htry]
      have hhandlers : handlersRun s (b :: left) = handlersRun s left := by
        simp [handlersRun, htry]
      rw [hcatches, List.length_cons] at hwords
      cases words with
      | nil => cases hwords
      | cons word words =>
        rw [blockCode, if_neg htry, List.cons_append, List.nil_append, List.cons_append, execLeave]
        by_cases habort : word = thread.invalidPc ∧ thread.aborting world
        · rw [if_pos habort]
          refine ⟨_, _, rfl, List.nil_prefix, ?_, fun hnot => ?_⟩
          · exact List.prefix_cons_inj word |>.2 List.nil_prefix
          · have hno := hnot word List.mem_cons_self habort.1 world
            rw [habort.2] at hno
            cases hno
        · rw [if_neg habort]
          obtain ⟨events, outcome, hexec, hran, htook, hwhole⟩ :=
            ih hrest (Nat.succ.inj hwords)
          rw [← hhandlers] at hran hwhole
          refine ⟨.took word :: events, outcome, by rw [hexec]; rfl, hran, ?_, fun hnot => ?_⟩
          · exact List.prefix_cons_inj word |>.2 htook
          · obtain ⟨hran, htook, houtcome⟩ :=
              hwhole fun other hother => hnot other (List.mem_cons_of_mem word hother)
            exact ⟨hran, congrArg (word :: ·) htook, houtcome⟩

end Execution

/-! ### Leaves -/

section Leaves

variable {s : ILCoderExceptions} {codeLen offset dest : ILUInt32} {left : List Nat}

theorem Left.handlersRun_nodup (h : Left s offset dest left) (hs : HandlersSound s) :
    (handlersRun s left).Nodup := by
  rw [handlersRun, List.nodup_flatMap]
  refine ⟨fun b _ => (hs.nodup b).filter _, (h.nodup.filter _).imp fun {a b} hne => ?_⟩
  intro handler ha hb
  exact hne (hs.disjoint a b handler (List.mem_of_mem_filter ha) (List.mem_of_mem_filter hb))

theorem Left.mem_handlersRun (h : Left s offset dest left) (handler : Nat) :
    handler ∈ handlersRun s left ↔ ∃ b < s.numBlocks, Contains s b offset ∧ ¬Contains s b dest ∧
      (s.blocks b).flags = .tryBlock ∧ handler ∈ s.handlers b ∧
      (s.blocks handler).flags = .finallyBlock := by
  simp only [handlersRun, finallyHandlers, List.mem_flatMap, List.mem_filter, decide_eq_true_eq,
    h.mem_iff]
  constructor
  · rintro ⟨b, ⟨⟨hb, hin, hout⟩, htry⟩, hhandler⟩
    exact ⟨b, hb, hin, hout, htry, hhandler⟩
  · rintro ⟨b, hb, hin, hout, htry, hhandler⟩
    exact ⟨b, ⟨⟨hb, hin, hout⟩, htry⟩, hhandler⟩

/-- What a leave promises. `words` are those of the catch handlers that are left, the innermost
one's on top; they are taken off in an order that `order` makes of that. -/
def LeaveSound (order : ∀ {Word : Type}, List Word → List Word) (w : CVMWords)
    (s : ILCoderExceptions) (items : List ILEngineStackItem) (offset dest : ILUInt32)
    (code : List CVMInsn) : Prop :=
  ∃ left, Left s offset dest left ∧ (handlersRun s left).Nodup ∧
    (∀ handler, handler ∈ handlersRun s left ↔ ∃ b < s.numBlocks, Contains s b offset ∧
      ¬Contains s b dest ∧ (s.blocks b).flags = .tryBlock ∧ handler ∈ s.handlers b ∧
      (s.blocks handler).flags = .finallyBlock) ∧
    ∀ (Word World : Type) [DecidableEq Word] (thread : CVMThread Word World)
      (evaluation words frame : List Word) (world : World),
      evaluation.length = computeStackSize w items →
      words.length = (catchesLeft s left).length →
      ∃ events outcome, execLeave thread code ⟨evaluation ++ words ++ frame, world⟩ =
          some (events, outcome) ∧
        Leaves thread s left dest (order words) frame world events outcome

/-- In a try block from 0 to 10, which has a finally handler, a catch handler from 3 to 9, and in
that another one from 5 to 7. -/
def nestedClauses : List ILException :=
  [⟨0, 4, 1, 5, 2, 0⟩, ⟨0, 1, 2, 3, 6, 0⟩, ⟨0x0002, 0, 10, 10, 1, 0⟩]

theorem Left.length_catchesLeft (h : Left s offset dest left) : (catchesLeft s left).length =
    ((List.range s.numBlocks).filter fun b => Contains s b offset ∧ ¬Contains s b dest ∧
      (s.blocks b).flags ≠ .tryBlock).length := by
  refine ((List.perm_ext_iff_of_nodup (h.nodup.filter _) (List.nodup_range.filter _)).2
    fun b => ?_).length_eq
  simp only [List.mem_filter, h.mem_iff, List.mem_range, decide_eq_true_eq]
  constructor
  · rintro ⟨⟨hb, hin, hout⟩, htry⟩
    exact ⟨hb, hin, hout, htry⟩
  · rintro ⟨hb, hin, hout, htry⟩
    exact ⟨⟨hb, hin, hout⟩, htry⟩

end Leaves

end Pnet.Engine.Coder
