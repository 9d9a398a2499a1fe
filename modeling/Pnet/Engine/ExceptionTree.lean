import Pnet.Engine.ExceptionBlocks

/-! An insertion does to the links between exception blocks what it does to the forest that
they hold. Nothing here depends on the order of the offsets of a block. -/
namespace Pnet.Engine.Coder
open Pnet.Lib

open ILCoderExceptions

variable {s s' : ILCoderExceptions} {touched : List Nat} {l : Link}

/-- Blocks that only got another parent. -/
structure Reparented (s s' : ILCoderExceptions) (changed : List Nat) : Prop where
  frame : Frame s s' changed .first
  nested : ∀ b, (s'.blocks b).nested = (s.blocks b).nested
  nextNested : ∀ b, (s'.blocks b).nextNested = (s.blocks b).nextNested
  firstBlock : s'.firstBlock = s.firstBlock

theorem Reparented.refl (s : ILCoderExceptions) (changed : List Nat) : Reparented s s changed :=
  ⟨Frame.refl .., fun _ => rfl, fun _ => rfl, rfl⟩

theorem Reparented.toFrame {changed : List Nat} (h : Reparented s s' changed) (l : Link) :
    Frame s s' changed l :=
  ⟨h.frame.offsets, h.frame.parent, fun b _ _ => h.nested b, fun b _ _ => h.nextNested b,
    fun _ => h.firstBlock, h.frame.numBlocks⟩

theorem Reparented.cons (s : ILCoderExceptions) {n x : Nat} {changed : List Nat}
    (h : Reparented (s.setParent n (some x)) s' changed) {children : List Nat} :
    Reparented s s' (n :: (children ++ changed)) :=
  ⟨(frame_setParent List.mem_cons_self _).trans (h.frame.widen
      (fun _ hb => List.mem_cons_of_mem _ (List.mem_append_right _ hb)) (.inl rfl)),
    fun _ => (h.nested _).trans (nested_setParent ..),
    fun _ => (h.nextNested _).trans (nextNested_setParent ..), h.firstBlock⟩

section

variable {x last : Nat} {f : Forest Nat} {parent start : Option Nat} {fuel : Nat}

/-- A list that ends in front of everything it held. -/
theorem holds_cut_nil (s : ILCoderExceptions) (last : Nat) (parent : Option Nat) :
    Holds (s.setNextNested last none).blocks parent
      ((s.setNextNested last none).blocks last).nextNested .nil := by
  show ((s.setNextNested last none).blocks last).nextNested = none
  rw [nextNested_setNextNested, if_pos rfl]

theorem startOf_congr (h : ∀ b, (s'.blocks b).flags = (s.blocks b).flags ∧
    (s'.blocks b).startOffset = (s.blocks b).startOffset ∧
    (s'.blocks b).endOffset = (s.blocks b).endOffset) :
    startOf s'.blocks = startOf s.blocks ∧ endOf s'.blocks = endOf s.blocks := by
  constructor
  · funext b
    rw [startOf, startOf, (h b).2.1]
  · funext b
    rw [endOf, endOf, (h b).2.2]

theorem startOf_setParent (s : ILCoderExceptions) (n : Nat) (v : Option Nat) :
    startOf (s.setParent n v).blocks = startOf s.blocks ∧
      endOf (s.setParent n v).blocks = endOf s.blocks :=
  startOf_congr (offsets_setBlock ⟨rfl, rfl, rfl⟩)

/-- After the walk, cutting the list behind the last block that is taken leaves the blocks
that were taken behind `last`, and the others behind the cut. -/
theorem nestFrom_spec (hholds : Holds s.blocks parent start f)
    (hlast : (s.blocks last).nextNested = start) (hnodup : f.nodes.Nodup)
    (hnotin : last ∉ f.nodes) (hfuel : f.nodes.length ≤ fuel) {taken left : Forest Nat}
    (hsplit : f.takeNested (startOf s.blocks) (endOf s.blocks) x = some (taken, left)) :
    ∃ s' lastNested, nestFrom s x fuel last start = .ok (s', lastNested) ∧
      Reparented s s' taken.nodes ∧ (lastNested = last ∨ lastNested ∈ taken.nodes) ∧
      Holds s'.blocks parent (s'.blocks lastNested).nextNested left ∧
      Holds (s'.setNextNested lastNested none).blocks (some x)
        ((s'.setNextNested lastNested none).blocks last).nextNested taken := by
  induction f generalizing s last start fuel taken left with
  | nil =>
    obtain rfl : start = none := hholds
    cases hsplit
    refine ⟨s, last, ?_, Reparented.refl .., .inl rfl, hlast, holds_cut_nil ..⟩
    cases fuel <;> rfl
  | cons n children rest _ ih =>
    obtain ⟨rfl, hparent, hchildren, hrest⟩ := hholds
    have hnodup' := List.nodup_cons.1 hnodup
    have hrestNodup : rest.nodes.Nodup := hnodup'.2.of_append_right
    cases fuel with
    | zero => cases hfuel
    | succ fuel =>
      have hlen : rest.nodes.length ≤ fuel := by
        simp only [Forest.nodes, List.length_cons, List.length_append] at hfuel
        omega
      unfold Forest.takeNested at hsplit
      unfold nestFrom
      split_ifs at hsplit with hbefore hinside
      · cases hsplit
        rw [if_pos (show (s.blocks x).endOffset ≤ (s.blocks n).startOffset from hbefore)]
        exact ⟨s, last, rfl, Reparented.refl .., .inl rfl,
          ⟨hlast, hparent, hchildren, hrest⟩, holds_cut_nil ..⟩
      · obtain ⟨⟨taken', left'⟩, hsplit', heq⟩ := Option.map_eq_some_iff.1 hsplit
        cases heq
        rw [if_neg (show ¬ (s.blocks x).endOffset ≤ (s.blocks n).startOffset from hbefore),
          if_pos (show (s.blocks n).endOffset ≤ (s.blocks x).endOffset from hinside)]
        have hoffsets := startOf_setParent s n (some x)
        have hnrest : n ∉ rest.nodes := fun hmem => hnodup'.1 (List.mem_append_right _ hmem)
        have hrest' : Holds (s.setParent n (some x)).blocks parent (s.blocks n).nextNested rest := by
          refine hrest.congr fun b hb => ⟨?_, nested_setParent .., nextNested_setParent ..⟩
          rw [parent_setParent, if_neg fun heq : b = n => hnrest (heq ▸ hb)]
        obtain ⟨s', lastNested, hrun, hre, hin, hleft, htaken⟩ := ih hrest'
          (show ((s.setParent n (some x)).blocks n).nextNested = _ from nextNested_setParent ..) hrestNodup hnrest hlen
          (by rw [hoffsets.1, hoffsets.2]; exact hsplit')
        have hperm := Forest.nodes_takeNested hsplit'
        have htakenRest : ∀ b ∈ taken'.nodes, b ∈ rest.nodes :=
          fun b hb => hperm.symm.subset (List.mem_append_left _ hb)
        refine ⟨s', lastNested, ?_, hre.cons, .inr ?_, hleft, ?_⟩
        · simp only [nextNested_setParent]
          exact hrun
        · rcases hin with rfl | hmem
          · exact List.mem_cons_self
          · exact List.mem_cons_of_mem _ (List.mem_append_right _ hmem)
        · have hlastNe : last ≠ lastNested := by
            rintro rfl
            rcases hin with rfl | hmem
            · exact hnotin List.mem_cons_self
            · exact hnotin (List.mem_cons_of_mem _ (List.mem_append_right _ (htakenRest _ hmem)))
          refine ⟨?_, ?_, ?_, htaken⟩
          · rw [nextNested_setNextNested, if_neg hlastNe, hre.nextNested, nextNested_setParent, hlast]
          · rw [parent_setNextNested, hre.frame.parent n fun hmem => hnrest (htakenRest n hmem),
              parent_setParent, if_pos rfl]
          · rw [nested_setNextNested, hre.nested, nested_setParent]
            refine hchildren.congr fun b hb => ⟨?_, ?_, ?_⟩
            · have hbn : b ≠ n := fun heq => hnodup'.1 (List.mem_append_left _ (heq ▸ hb))
              have hbt : b ∉ taken'.nodes := fun hmem =>
                (List.nodup_append.1 hnodup'.2).2.2 b hb b (htakenRest b hmem) rfl
              rw [parent_setNextNested, hre.frame.parent b hbt, parent_setParent, if_neg hbn]
            · rw [nested_setNextNested, hre.nested, nested_setParent]
            · have hbl : b ≠ lastNested := by
                rintro rfl
                rcases hin with rfl | hmem
                · exact hnodup'.1 (List.mem_append_left _ hb)
                · exact (List.nodup_append.1 hnodup'.2).2.2 b hb b (htakenRest b hmem) rfl
              rw [nextNested_setNextNested, if_neg hbl, hre.nextNested, nextNested_setParent]

theorem nestFrom_error (hholds : Holds s.blocks parent start f) (hnodup : f.nodes.Nodup)
    (hfuel : f.nodes.length ≤ fuel)
    (hsplit : f.takeNested (startOf s.blocks) (endOf s.blocks) x = none) :
    nestFrom s x fuel last start = .error .branchErr := by
  induction f generalizing s last start fuel with
  | nil => cases hsplit
  | cons n children rest _ ih =>
    obtain ⟨rfl, hparent, hchildren, hrest⟩ := hholds
    have hnodup' := List.nodup_cons.1 hnodup
    cases fuel with
    | zero => cases hfuel
    | succ fuel =>
      have hlen : rest.nodes.length ≤ fuel := by
        simp only [Forest.nodes, List.length_cons, List.length_append] at hfuel
        omega
      unfold Forest.takeNested at hsplit
      unfold nestFrom
      split_ifs at hsplit with hbefore hinside
      · rw [if_neg (show ¬ (s.blocks x).endOffset ≤ (s.blocks n).startOffset from hbefore),
          if_pos (show (s.blocks n).endOffset ≤ (s.blocks x).endOffset from hinside)]
        have hoffsets := startOf_setParent s n (some x)
        have hnrest : n ∉ rest.nodes := fun hmem => hnodup'.1 (List.mem_append_right _ hmem)
        have hrest' : Holds (s.setParent n (some x)).blocks parent (s.blocks n).nextNested rest := by
          refine hrest.congr fun b hb => ⟨?_, nested_setParent .., nextNested_setParent ..⟩
          rw [parent_setParent, if_neg fun heq : b = n => hnrest (heq ▸ hb)]
        simp only [nextNested_setParent]
        exact ih hrest' hnodup'.2.of_append_right hlen
          (by rw [hoffsets.1, hoffsets.2]; exact Option.map_eq_none_iff.1 hsplit)
      · rw [if_neg (show ¬ (s.blocks x).endOffset ≤ (s.blocks n).startOffset from hbefore),
          if_neg (show ¬ (s.blocks n).endOffset ≤ (s.blocks x).endOffset from hinside)]

/-! ### Inserting -/

/-- Where the loop of `InsertExceptionBlock` stands: at a list of siblings with this parent,
behind `prevEB`. The block `x` is new. -/
structure At (s : ILCoderExceptions) (x : Nat) (prevEB parent start : Option Nat)
    (f : Forest Nat) : Prop where
  holds : Holds s.blocks parent start f
  nodup : f.nodes.Nodup
  new : x ∉ f.nodes
  parentOut : ∀ p, parent = some p → p ≠ x ∧ p ∉ f.nodes
  prevOut : ∀ p, prevEB = some p → p ≠ x ∧ p ∉ f.nodes ∧ (s.blocks p).parent = parent
  link : (linkOf prevEB parent).read s = start
  fresh : (s.blocks x).parent = none ∧ (s.blocks x).nested = none ∧
    (s.blocks x).nextNested = none

theorem linkOf_cases (prevEB parent : Option Nat) :
    (∃ p, prevEB = some p ∧ linkOf prevEB parent = .next p) ∨
      (prevEB = none ∧ ∃ p, parent = some p ∧ linkOf prevEB parent = .nested p) ∨
      (prevEB = none ∧ parent = none ∧ linkOf prevEB parent = .first) := by
  cases prevEB with
  | some p => exact .inl ⟨p, rfl, rfl⟩
  | none =>
    cases parent with
    | some p => exact .inr (.inl ⟨rfl, p, rfl, rfl⟩)
    | none => exact .inr (.inr ⟨rfl, rfl, rfl⟩)

/-- The outcome of an insertion into a list of siblings. -/
def Inserted (s : ILCoderExceptions) (x : Nat) (prevEB parent : Option Nat) (f : Forest Nat)
    (result : Except CoderError ILCoderExceptions) (f' : Forest Nat) : Prop :=
  ∃ s', result = .ok s' ∧ Frame s s' (x :: f.nodes) (linkOf prevEB parent) ∧
    Holds s'.blocks parent ((linkOf prevEB parent).read s') f'

variable {prevEB : Option Nat} {c : Nat} {children rest : Forest Nat}

/-- A new block in front of the list. -/
theorem insertBefore_spec (h : At s x prevEB parent start (.cons c children rest)) :
    Inserted s x prevEB parent (.cons c children rest) (.ok (insertBefore s x prevEB c))
      (.cons x .nil (.cons c children rest)) := by
  have hparent : (s.blocks c).parent = parent := h.holds.2.1
  have hlink := h.link
  obtain ⟨rfl, _, _, _⟩ := h.holds
  have hsame : ∀ {s' : ILCoderExceptions}, Frame s s' [x] (linkOf prevEB parent) →
      Holds s'.blocks parent (some c) (.cons c children rest) := by
    intro s' hframe
    refine h.holds.congr fun b hb => ?_
    have hbx : b ∉ [x] := fun hmem => h.new (List.mem_singleton.1 hmem ▸ hb)
    refine ⟨hframe.parent b hbx, hframe.nested b hbx ?_, hframe.nextNested b hbx ?_⟩
    · rcases linkOf_cases prevEB parent with ⟨p, _, hl⟩ | ⟨_, p, hp, hl⟩ | ⟨_, _, hl⟩
      · simp [hl]
      · rw [hl]
        exact fun heq => (h.parentOut p hp).2 (Link.nested.inj heq ▸ hb)
      · simp [hl]
    · rcases linkOf_cases prevEB parent with ⟨p, hp, hl⟩ | ⟨_, p, _, hl⟩ | ⟨_, _, hl⟩
      · rw [hl]
        exact fun heq => (h.prevOut p hp).2.1 (Link.next.inj heq ▸ hb)
      · simp [hl]
      · simp [hl]
  suffices hmain : Frame s (insertBefore s x prevEB c) [x] (linkOf prevEB parent) ∧
      (linkOf prevEB parent).read (insertBefore s x prevEB c) = some x ∧
      ((insertBefore s x prevEB c).blocks x).parent = parent ∧
      ((insertBefore s x prevEB c).blocks x).nested = none ∧
      ((insertBefore s x prevEB c).blocks x).nextNested = some c by
    obtain ⟨hframe, hread, hp, hn, hnn⟩ := hmain
    refine ⟨_, rfl, hframe.widen (fun b hb => ?_) (.inl rfl), hread, hp, hn, ?_⟩
    · exact List.mem_singleton.1 hb ▸ List.mem_cons_self
    · rw [hnn]
      exact hsame hframe
  have hx : x ∈ [x] := List.mem_singleton_self x
  unfold insertBefore
  rw [hparent]
  cases prevEB with
  | some p =>
    obtain ⟨hpx, _, hpp⟩ := h.prevOut p rfl
    refine ⟨?_, ?_, ?_, ?_, ?_⟩
    · exact ((frame_setNextNested (.inl hx) _).trans (frame_setNextNested (.inr rfl) _)).trans
        (frame_setParent hx _)
    · show ((ILCoderExceptions.setParent _ x _).blocks p).nextNested = some x
      rw [nextNested_setParent, nextNested_setNextNested, if_pos rfl]
    · rw [parent_setParent, if_pos rfl, parent_setNextNested, parent_setNextNested, hpp]
    · rw [nested_setParent, nested_setNextNested, nested_setNextNested, h.fresh.2.1]
    · rw [nextNested_setParent, nextNested_setNextNested, if_neg hpx.symm,
        nextNested_setNextNested, if_pos rfl]
      exact hlink
  | none =>
    cases parent with
    | some p =>
      have hpx := (h.parentOut p rfl).1
      refine ⟨?_, ?_, ?_, ?_, ?_⟩
      · exact ((frame_setNextNested (.inl hx) _).trans (frame_setNested (.inr rfl) _)).trans
          (frame_setParent hx _)
      · show ((ILCoderExceptions.setParent _ x _).blocks p).nested = some x
        rw [nested_setParent, nested_setNested, if_pos rfl]
      · rw [parent_setParent, if_pos rfl]
      · rw [nested_setParent, nested_setNested, if_neg hpx.symm, nested_setNextNested, h.fresh.2.1]
      · rw [nextNested_setParent, nextNested_setNested, nextNested_setNextNested, if_pos rfl]
        exact hlink
    | none =>
      refine ⟨?_, rfl, ?_, ?_, ?_⟩
      · exact (frame_setNextNested (.inl hx) _).trans (frame_setFirstBlock _)
      · exact (parent_setNextNested ..).trans h.fresh.1
      · exact (nested_setNextNested ..).trans h.fresh.2.1
      · exact (nextNested_setNextNested ..).trans ((if_pos rfl).trans hlink)

def Link.write (s : ILCoderExceptions) (v : Option Nat) : Link → ILCoderExceptions
  | first => s.setFirstBlock v
  | next b => s.setNextNested b v
  | nested b => s.setNested b v

theorem Link.read_write (s : ILCoderExceptions) (v : Option Nat) (l : Link) :
    l.read (l.write s v) = v := by
  cases l with
  | first => rfl
  | next b => exact (nextNested_setNextNested ..).trans (if_pos rfl)
  | nested b => exact (nested_setNested ..).trans (if_pos rfl)

theorem Link.frame_write (s : ILCoderExceptions) (v : Option Nat) (l : Link) :
    Frame s (l.write s v) [] l := by
  cases l with
  | first => exact frame_setFirstBlock v
  | next b => exact frame_setNextNested (.inr rfl) v
  | nested b => exact frame_setNested (.inr rfl) v

theorem At.link_ne (h : At s x prevEB parent start f) {b : Nat} (hb : b = x ∨ b ∈ f.nodes) :
    linkOf prevEB parent ≠ .nested b ∧ linkOf prevEB parent ≠ .next b := by
  rcases linkOf_cases prevEB parent with ⟨p, hp, hl⟩ | ⟨_, p, hp, hl⟩ | ⟨_, _, hl⟩
  · obtain ⟨hpx, hpf, _⟩ := h.prevOut p hp
    rw [hl]
    refine ⟨by simp, fun heq => ?_⟩
    obtain rfl := Link.next.inj heq
    exact hb.elim hpx hpf
  · obtain ⟨hpx, hpf⟩ := h.parentOut p hp
    rw [hl]
    refine ⟨fun heq => ?_, by simp⟩
    obtain rfl := Link.nested.inj heq
    exact hb.elim hpx hpf
  · simp [hl]

/-- Writing the link to a list does not change the list. -/
theorem At.blocks_write (h : At s x prevEB parent start f) (s' : ILCoderExceptions)
    (v : Option Nat) {b : Nat} (hb : b = x ∨ b ∈ f.nodes) :
    (((linkOf prevEB parent).write s' v).blocks b).parent = (s'.blocks b).parent ∧
      (((linkOf prevEB parent).write s' v).blocks b).nested = (s'.blocks b).nested ∧
      (((linkOf prevEB parent).write s' v).blocks b).nextNested = (s'.blocks b).nextNested := by
  have hframe := Link.frame_write s' v (linkOf prevEB parent)
  obtain ⟨hnested, hnext⟩ := h.link_ne hb
  exact ⟨hframe.parent b List.not_mem_nil, hframe.nested b List.not_mem_nil hnested,
    hframe.nextNested b List.not_mem_nil hnext⟩

/-- The links of a block that are set before the others are looked at. -/
def nestFirst (s : ILCoderExceptions) (x c : Nat) : ILCoderExceptions :=
  let s := s.setNested x (some c)
  let s := s.setParent x (s.blocks c).parent
  s.setParent c (some x)

theorem nestFirst_blocks (s : ILCoderExceptions) (x c b : Nat) :
    ((nestFirst s x c).blocks b).parent =
        (if b = c then some x else if b = x then (s.blocks c).parent else (s.blocks b).parent) ∧
      ((nestFirst s x c).blocks b).nested = (if b = x then some c else (s.blocks b).nested) ∧
      ((nestFirst s x c).blocks b).nextNested = (s.blocks b).nextNested := by
  refine ⟨?_, ?_, ?_⟩
  · rw [nestFirst, parent_setParent, parent_setParent, parent_setNested, parent_setNested]
  · rw [nestFirst, nested_setParent, nested_setParent, nested_setNested]
  · rw [nestFirst, nextNested_setParent, nextNested_setParent, nextNested_setNested]

theorem frame_nestFirst (hx : x ∈ touched) (hc : c ∈ touched) :
    Frame s (nestFirst s x c) touched l :=
  ((frame_setNested (.inl hx) _).trans (frame_setParent hx _)).trans (frame_setParent hc _)

theorem holds_nestFirst (h : At s x prevEB parent start (.cons c children rest)) :
    Holds (nestFirst s x c).blocks (some c) (s.blocks c).nested children ∧
      Holds (nestFirst s x c).blocks parent (s.blocks c).nextNested rest := by
  obtain ⟨_, _, hchildren, hrest⟩ := h.holds
  have hnodup := List.nodup_cons.1 h.nodup
  have hsame : ∀ b ∈ children.nodes ++ rest.nodes,
      ((nestFirst s x c).blocks b).parent = (s.blocks b).parent ∧
      ((nestFirst s x c).blocks b).nested = (s.blocks b).nested ∧
      ((nestFirst s x c).blocks b).nextNested = (s.blocks b).nextNested := by
    intro b hb
    have hbx : b ≠ x := fun heq => h.new (heq ▸ List.mem_cons_of_mem _ hb)
    have hbc : b ≠ c := fun heq => hnodup.1 (heq ▸ hb)
    obtain ⟨hp, hn, hnn⟩ := nestFirst_blocks s x c b
    rw [if_neg hbc, if_neg hbx] at hp
    rw [if_neg hbx] at hn
    exact ⟨hp, hn, hnn⟩
  exact ⟨hchildren.congr fun b hb => hsame b (List.mem_append_left _ hb),
    hrest.congr fun b hb => hsame b (List.mem_append_right _ hb)⟩

/-- The link to the list that `prevEB` and the parent of the block tell. -/
def nestLast (x : Nat) (prevEB : Option Nat) (s : ILCoderExceptions) (lastNestedEB : Nat) :
    ILCoderExceptions :=
  let s := s.setNextNested x (s.blocks lastNestedEB).nextNested
  let s := s.setNextNested lastNestedEB none
  (linkOf prevEB (s.blocks x).parent).write s (some x)

theorem nestExceptionBlocks_eq (s : ILCoderExceptions) (x : Nat) (prevEB : Option Nat) (c : Nat) :
    nestExceptionBlocks s x prevEB c =
      (nestFrom (nestFirst s x c) x s.numBlocks c (s.blocks c).nextNested).map
        fun r => nestLast x prevEB r.1 r.2 := by
  have hnext : ((nestFirst s x c).blocks c).nextNested = (s.blocks c).nextNested :=
    (nestFirst_blocks s x c c).2.2
  rw [← hnext]
  show (nestFrom (nestFirst s x c) x s.numBlocks c
    ((nestFirst s x c).blocks c).nextNested >>= _) = _
  cases nestFrom (nestFirst s x c) x s.numBlocks c ((nestFirst s x c).blocks c).nextNested with
  | error e => rfl
  | ok r =>
    obtain ⟨s', lastNestedEB⟩ := r
    cases prevEB with
    | some p => rfl
    | none =>
      show _ = Except.ok (nestLast x none s' lastNestedEB)
      unfold nestLast
      simp only [bind, Except.bind]
      cases (((s'.setNextNested x (s'.blocks lastNestedEB).nextNested).setNextNested
        lastNestedEB none).blocks x).parent <;> rfl

theorem At.blocks_nestLast (h : At s x prevEB parent start f) (s' : ILCoderExceptions)
    (lastNested : Nat) (hparent : (s'.blocks x).parent = parent) {b : Nat}
    (hb : b = x ∨ b ∈ f.nodes) :
    ((nestLast x prevEB s' lastNested).blocks b).parent = (s'.blocks b).parent ∧
      ((nestLast x prevEB s' lastNested).blocks b).nested = (s'.blocks b).nested ∧
      ((nestLast x prevEB s' lastNested).blocks b).nextNested =
        (if b = lastNested then none else if b = x then (s'.blocks lastNested).nextNested
          else (s'.blocks b).nextNested) := by
  have hparent' : (((s'.setNextNested x (s'.blocks lastNested).nextNested).setNextNested
      lastNested none).blocks x).parent = parent := by
    rw [parent_setNextNested, parent_setNextNested, hparent]
  unfold nestLast
  dsimp only
  rw [hparent']
  obtain ⟨hp, hn, hnn⟩ := h.blocks_write
    ((s'.setNextNested x (s'.blocks lastNested).nextNested).setNextNested lastNested none)
    (some x) hb
  refine ⟨hp.trans ?_, hn.trans ?_, hnn.trans ?_⟩
  · rw [parent_setNextNested, parent_setNextNested]
  · rw [nested_setNextNested, nested_setNextNested]
  · rw [nextNested_setNextNested, nextNested_setNextNested]

theorem frame_nestLast {lastNested : Nat} (hparent : (s.blocks x).parent = parent)
    (hx : x ∈ touched) (hlast : lastNested ∈ touched) :
    Frame s (nestLast x prevEB s lastNested) touched (linkOf prevEB parent) := by
  have hparent' : (((s.setNextNested x (s.blocks lastNested).nextNested).setNextNested
      lastNested none).blocks x).parent = parent := by
    rw [parent_setNextNested, parent_setNextNested, hparent]
  unfold nestLast
  dsimp only
  rw [hparent']
  exact ((frame_setNextNested (.inl hx) _).trans (frame_setNextNested (.inl hlast) _)).trans
    ((Link.frame_write ..).widen (fun b hb => absurd hb List.not_mem_nil) (.inl rfl))

theorem read_nestLast {lastNested : Nat} (hparent : (s.blocks x).parent = parent) :
    (linkOf prevEB parent).read (nestLast x prevEB s lastNested) = some x := by
  unfold nestLast
  dsimp only
  rw [parent_setNextNested, parent_setNextNested, hparent, Link.read_write]

/-- The list goes on behind the block with what it does not enclose. -/
theorem nestExceptionBlocks_spec (h : At s x prevEB parent start (.cons c children rest))
    (hfuel : rest.nodes.length ≤ s.numBlocks) {taken left : Forest Nat}
    (hsplit : rest.takeNested (startOf s.blocks) (endOf s.blocks) x = some (taken, left)) :
    Inserted s x prevEB parent (.cons c children rest) (nestExceptionBlocks s x prevEB c)
      (.cons x (.cons c children taken) left) := by
  have hparent : (s.blocks c).parent = parent := h.holds.2.1
  have hnodup := List.nodup_cons.1 h.nodup
  obtain ⟨hchildren, hrest⟩ := holds_nestFirst h
  have hxc : x ≠ c := fun heq => h.new (heq ▸ List.mem_cons_self)
  have hperm := Forest.nodes_takeNested hsplit
  have htakenRest : ∀ b ∈ taken.nodes, b ∈ rest.nodes :=
    fun b hb => hperm.symm.subset (List.mem_append_left _ hb)
  have hleftRest : ∀ b ∈ left.nodes, b ∈ rest.nodes :=
    fun b hb => hperm.symm.subset (List.mem_append_right _ hb)
  have hmem : ∀ b ∈ rest.nodes, b ∈ (Forest.cons c children rest).nodes :=
    fun b hb => List.mem_cons_of_mem _ (List.mem_append_right _ hb)
  have hframe : Frame s (nestFirst s x c) [x, c] .first := frame_nestFirst (by simp) (by simp)
  have hoffsets := startOf_congr hframe.offsets
  obtain ⟨s', lastNested, hrun, hre, hin, hleft, htaken⟩ := nestFrom_spec (x := x) hrest
    (nestFirst_blocks s x c c).2.2 hnodup.2.of_append_right
    (fun hc => hnodup.1 (List.mem_append_right _ hc)) hfuel
    (by rw [hoffsets.1, hoffsets.2]; exact hsplit)
  have hparentx : (s'.blocks x).parent = parent := by
    rw [hre.frame.parent x fun hx => h.new (hmem x (htakenRest x hx)), (nestFirst_blocks ..).1,
      if_neg hxc, if_pos rfl, hparent]
  have hlastMem : lastNested = c ∨ lastNested ∈ rest.nodes := hin.imp_right (htakenRest _)
  have hlastNode : lastNested ∈ (Forest.cons c children rest).nodes :=
    hlastMem.elim (fun heq => heq ▸ List.mem_cons_self) (hmem _)
  have hlastx : x ≠ lastNested := fun heq => h.new (heq ▸ hlastNode)
  have hblocks := fun b hb => h.blocks_nestLast s' lastNested hparentx (b := b) hb
  have hdisjoint := List.nodup_append.1 hnodup.2
  have hdisjoint' := List.nodup_append.1 (hperm.nodup_iff.1 hnodup.2.of_append_right)
  have hctaken : c ∉ taken.nodes :=
    fun hc => hnodup.1 (List.mem_append_right _ (htakenRest c hc))
  refine ⟨_, by rw [nestExceptionBlocks_eq, hrun]; rfl, ?_, ?_, ?_, ?_, ?_⟩
  · refine (frame_nestFirst List.mem_cons_self (List.mem_cons_of_mem _ List.mem_cons_self)).trans
      (((hre.toFrame _).widen (fun b hb => ?_) (.inl rfl)).trans
        (frame_nestLast hparentx List.mem_cons_self (List.mem_cons_of_mem _ hlastNode)))
    exact List.mem_cons_of_mem _ (hmem b (htakenRest b hb))
  · exact read_nestLast hparentx
  · rw [(hblocks x (.inl rfl)).1, hparentx]
  · rw [(hblocks x (.inl rfl)).2.1, hre.nested, (nestFirst_blocks ..).2.1, if_pos rfl]
    obtain ⟨hp, hn, hnn⟩ := hblocks c (.inr List.mem_cons_self)
    refine ⟨rfl, ?_, ?_, ?_⟩
    · rw [hp, hre.frame.parent c hctaken, (nestFirst_blocks ..).1, if_pos rfl]
    · rw [hn, hre.nested, (nestFirst_blocks ..).2.1, if_neg hxc.symm]
      refine hchildren.congr fun b hb => ?_
      have hbf : b ∈ (Forest.cons c children rest).nodes :=
        List.mem_cons_of_mem _ (List.mem_append_left _ hb)
      have hbt : b ∉ taken.nodes := fun hmem => hdisjoint.2.2 b hb b (htakenRest b hmem) rfl
      have hbl : b ≠ lastNested := by
        rintro rfl
        rcases hlastMem with rfl | hmem
        · exact hnodup.1 (List.mem_append_left _ hb)
        · exact hdisjoint.2.2 b hb b hmem rfl
      obtain ⟨hp, hn, hnn⟩ := hblocks b (.inr hbf)
      refine ⟨hp.trans (hre.frame.parent b hbt), hn.trans (hre.nested b), hnn.trans ?_⟩
      rw [if_neg hbl, if_neg fun heq : b = x => h.new (heq ▸ hbf), hre.nextNested]
    · have hnext : ((nestLast x prevEB s' lastNested).blocks c).nextNested =
          ((s'.setNextNested lastNested none).blocks c).nextNested := by
        rw [hnn, nextNested_setNextNested, if_neg hxc.symm]
      rw [hnext]
      refine htaken.congr fun b hb => ?_
      have hbf := hmem b (htakenRest b hb)
      obtain ⟨hp, hn, hnn⟩ := hblocks b (.inr hbf)
      refine ⟨hp.trans (parent_setNextNested ..).symm, hn.trans (nested_setNextNested ..).symm,
        hnn.trans ?_⟩
      rw [nextNested_setNextNested, if_neg fun heq : b = x => h.new (heq ▸ hbf)]
  · rw [(hblocks x (.inl rfl)).2.2, if_neg hlastx, if_pos rfl]
    refine hleft.congr fun b hb => ?_
    have hbf := hmem b (hleftRest b hb)
    have hbl : b ≠ lastNested := by
      rintro rfl
      rcases hin with rfl | hmem
      · exact hnodup.1 (List.mem_append_right _ (hleftRest b hb))
      · exact hdisjoint'.2.2 b hmem b hb rfl
    obtain ⟨hp, hn, hnn⟩ := hblocks b (.inr hbf)
    refine ⟨hp, hn, hnn.trans ?_⟩
    rw [if_neg hbl, if_neg fun heq : b = x => h.new (heq ▸ hbf)]

theorem nestExceptionBlocks_error (h : At s x prevEB parent start (.cons c children rest))
    (hfuel : rest.nodes.length ≤ s.numBlocks)
    (hsplit : rest.takeNested (startOf s.blocks) (endOf s.blocks) x = none) :
    nestExceptionBlocks s x prevEB c = .error .branchErr := by
  have hframe : Frame s (nestFirst s x c) [x, c] .first := frame_nestFirst (by simp) (by simp)
  have hoffsets := startOf_congr hframe.offsets
  have hnodup := (List.nodup_cons.1 h.nodup).2.of_append_right
  have hrun : nestFrom (nestFirst s x c) x s.numBlocks c (s.blocks c).nextNested =
      .error .branchErr := nestFrom_error (holds_nestFirst h).2 hnodup hfuel
    (by rw [hoffsets.1, hoffsets.2]; exact hsplit)
  rw [nestExceptionBlocks_eq, hrun]
  rfl

/-! ### The walk -/

theorem At.behind (h : At s x prevEB parent start (.cons c children rest)) :
    At s x (some c) parent (s.blocks c).nextNested rest := by
  obtain ⟨_, hparent, _, hrest⟩ := h.holds
  have hnodup := List.nodup_cons.1 h.nodup
  refine ⟨hrest, hnodup.2.of_append_right,
    fun hx => h.new (List.mem_cons_of_mem _ (List.mem_append_right _ hx)), fun p hp => ?_,
    fun p hp => ?_, rfl, h.fresh⟩
  · obtain ⟨hpx, hpf⟩ := h.parentOut p hp
    exact ⟨hpx, fun hmem => hpf (List.mem_cons_of_mem _ (List.mem_append_right _ hmem))⟩
  · obtain rfl := Option.some.inj hp
    exact ⟨fun heq => h.new (heq ▸ List.mem_cons_self),
      fun hc => hnodup.1 (List.mem_append_right _ hc), hparent⟩

theorem At.below (h : At s x prevEB parent start (.cons c children rest)) :
    At s x none (some c) (s.blocks c).nested children := by
  obtain ⟨_, _, hchildren, _⟩ := h.holds
  have hnodup := List.nodup_cons.1 h.nodup
  refine ⟨hchildren, hnodup.2.of_append_left,
    fun hx => h.new (List.mem_cons_of_mem _ (List.mem_append_left _ hx)), fun p hp => ?_,
    fun p hp => ?_, rfl, h.fresh⟩
  · obtain rfl := Option.some.inj hp
    exact ⟨fun heq => h.new (heq ▸ List.mem_cons_self),
      fun hc => hnodup.1 (List.mem_append_left _ hc)⟩
  · cases hp

theorem Frame.read {k : Link} (h : Frame s s' touched l) (hl : l ≠ k)
    (hk : ∀ b ∈ touched, k ≠ .nested b ∧ k ≠ .next b) : k.read s' = k.read s := by
  cases k with
  | first => exact h.firstBlock hl
  | next b => exact h.nextNested b (fun hb => (hk b hb).2 rfl) hl
  | nested b => exact h.nested b (fun hb => (hk b hb).1 rfl) hl

/-- The blocks outside a list are as they were. -/
theorem Frame.holds {f' : Forest Nat} (h : Frame s s' touched l)
    (hf : Holds s.blocks parent start f')
    (hout : ∀ b ∈ f'.nodes, b ∉ touched ∧ l ≠ .nested b ∧ l ≠ .next b) :
    Holds s'.blocks parent start f' := by
  refine hf.congr fun b hb => ?_
  obtain ⟨hb, hn, hnn⟩ := hout b hb
  exact ⟨h.parent b hb, h.nested b hb hn, h.nextNested b hb hnn⟩

theorem Inserted.behind (h : At s x prevEB parent start (.cons c children rest))
    {result : Except CoderError ILCoderExceptions} {rest' : Forest Nat}
    (hin : Inserted s x (some c) parent rest result rest') :
    Inserted s x prevEB parent (.cons c children rest) result (.cons c children rest') := by
  obtain ⟨s', hresult, hframe, hholds⟩ := hin
  have hnodup := List.nodup_cons.1 h.nodup
  have hcx : c ≠ x := fun heq => h.new (heq ▸ List.mem_cons_self)
  have hc : c ∉ x :: rest.nodes := fun hmem => (List.mem_cons.1 hmem).elim hcx
    fun hmem => hnodup.1 (List.mem_append_right _ hmem)
  have hsub : ∀ b ∈ x :: rest.nodes, b = x ∨ b ∈ (Forest.cons c children rest).nodes :=
    fun b hb => (List.mem_cons.1 hb).imp_right
      fun hb => List.mem_cons_of_mem _ (List.mem_append_right _ hb)
  obtain ⟨hstart, hparent, hchildren, _⟩ := h.holds
  refine ⟨s', hresult, hframe.widen (fun b hb => List.mem_cons.2 (hsub b hb))
    (.inr ⟨c, List.mem_cons_of_mem _ List.mem_cons_self, .inl rfl⟩), ?_, ?_, ?_, hholds⟩
  · rw [hframe.read (h.link_ne (.inr List.mem_cons_self)).2.symm fun b hb => h.link_ne (hsub b hb),
      h.link, hstart]
  · rw [hframe.parent c hc, hparent]
  · rw [hframe.nested c hc (by simp [linkOf])]
    refine hframe.holds hchildren fun b hb => ⟨fun hmem => ?_, by simp [linkOf], fun heq => ?_⟩
    · rcases List.mem_cons.1 hmem with rfl | hmem
      · exact h.new (List.mem_cons_of_mem _ (List.mem_append_left _ hb))
      · exact (List.nodup_append.1 hnodup.2).2.2 b hb b hmem rfl
    · obtain rfl : c = b := Link.next.inj heq
      exact hnodup.1 (List.mem_append_left _ hb)

theorem Inserted.below (h : At s x prevEB parent start (.cons c children rest))
    {result : Except CoderError ILCoderExceptions} {children' : Forest Nat}
    (hin : Inserted s x none (some c) children result children') :
    Inserted s x prevEB parent (.cons c children rest) result (.cons c children' rest) := by
  obtain ⟨s', hresult, hframe, hholds⟩ := hin
  have hnodup := List.nodup_cons.1 h.nodup
  have hcx : c ≠ x := fun heq => h.new (heq ▸ List.mem_cons_self)
  have hc : c ∉ x :: children.nodes := fun hmem => (List.mem_cons.1 hmem).elim hcx
    fun hmem => hnodup.1 (List.mem_append_left _ hmem)
  have hsub : ∀ b ∈ x :: children.nodes, b = x ∨ b ∈ (Forest.cons c children rest).nodes :=
    fun b hb => (List.mem_cons.1 hb).imp_right
      fun hb => List.mem_cons_of_mem _ (List.mem_append_left _ hb)
  obtain ⟨hstart, hparent, _, hrest⟩ := h.holds
  refine ⟨s', hresult, hframe.widen (fun b hb => List.mem_cons.2 (hsub b hb))
    (.inr ⟨c, List.mem_cons_of_mem _ List.mem_cons_self, .inr rfl⟩), ?_, ?_, hholds, ?_⟩
  · rw [hframe.read (h.link_ne (.inr List.mem_cons_self)).1.symm fun b hb => h.link_ne (hsub b hb),
      h.link, hstart]
  · rw [hframe.parent c hc, hparent]
  · rw [hframe.nextNested c hc (by simp [linkOf])]
    refine hframe.holds hrest fun b hb => ⟨fun hmem => ?_, fun heq => ?_, by simp [linkOf]⟩
    · rcases List.mem_cons.1 hmem with rfl | hmem
      · exact h.new (List.mem_cons_of_mem _ (List.mem_append_right _ hb))
      · exact (List.nodup_append.1 hnodup.2).2.2 b hmem b hb rfl
    · obtain rfl : c = b := Link.nested.inj heq
      exact hnodup.1 (List.mem_append_right _ hb)

theorem Holds.eq_nil (h : Holds s.blocks parent none f) : f = .nil := by
  cases f with
  | nil => rfl
  | cons b children rest => cases h.1

/-- The first block of a list of siblings. -/
theorem inserted_nil (hs : Frame s s' [x] (linkOf prevEB parent))
    (hread : (linkOf prevEB parent).read s' = some x) (hp : (s'.blocks x).parent = parent)
    (hn : (s'.blocks x).nested = none) (hnn : (s'.blocks x).nextNested = none) :
    Inserted s x prevEB parent .nil (.ok s') (.cons x .nil .nil) :=
  ⟨s', rfl, hs, hread, hp, hn, hnn⟩

theorem At.append_next (h : At s x (some c) parent start .nil) :
    Inserted s x (some c) parent .nil
      (.ok ((s.setNextNested c (some x)).setParent x ((s.setNextNested c (some x)).blocks c).parent))
      (.cons x .nil .nil) := by
  obtain ⟨hcx, _, hparent⟩ := h.prevOut c rfl
  refine inserted_nil ((frame_setNextNested (.inr rfl) _).trans
    (frame_setParent (List.mem_singleton_self x) _)) ?_ ?_ ?_ ?_
  · exact (nextNested_setParent ..).trans ((nextNested_setNextNested ..).trans (if_pos rfl))
  · rw [parent_setParent, if_pos rfl, parent_setNextNested, hparent]
  · rw [nested_setParent, nested_setNextNested, h.fresh.2.1]
  · rw [nextNested_setParent, nextNested_setNextNested, if_neg hcx.symm, h.fresh.2.2]

theorem At.append_nested (h : At s x none (some c) start .nil) :
    Inserted s x none (some c) .nil (.ok ((s.setNested c (some x)).setParent x (some c)))
      (.cons x .nil .nil) := by
  have hcx := (h.parentOut c rfl).1
  refine inserted_nil ((frame_setNested (.inr rfl) _).trans
    (frame_setParent (List.mem_singleton_self x) _)) ?_ ?_ ?_ ?_
  · exact (nested_setParent ..).trans ((nested_setNested ..).trans (if_pos rfl))
  · rw [parent_setParent, if_pos rfl]
  · rw [nested_setParent, nested_setNested, if_neg hcx.symm, h.fresh.2.1]
  · rw [nextNested_setParent, nextNested_setNested, h.fresh.2.2]

theorem insertFrom_spec (h : At s x prevEB parent (some c) f) (hfuel : f.nodes.length ≤ fuel)
    (hblocks : f.nodes.length ≤ s.numBlocks) :
    (∀ f', f.insert (startOf s.blocks) (endOf s.blocks) x = some f' →
      Inserted s x prevEB parent f (insertFrom s x fuel prevEB c) f') ∧
    (f.insert (startOf s.blocks) (endOf s.blocks) x = none →
      insertFrom s x fuel prevEB c = .error .branchErr) := by
  induction f generalizing prevEB parent c fuel with
  | nil => cases h.holds
  | cons n children rest ihc ihr =>
    obtain ⟨hc, hparent, hchildren, hrest⟩ := h.holds
    obtain rfl := Option.some.inj hc
    cases fuel with
    | zero => cases hfuel
    | succ fuel =>
      simp only [Forest.nodes, List.length_cons, List.length_append] at hfuel hblocks
      unfold Forest.insert insertFrom
      by_cases hbefore : endOf s.blocks x ≤ startOf s.blocks c
      · rw [if_pos hbefore,
          if_pos (show (s.blocks x).endOffset ≤ (s.blocks c).startOffset from hbefore)]
        refine ⟨fun f' hf' => ?_, fun hno => absurd hno (by simp)⟩
        obtain rfl := Option.some.inj hf'
        exact insertBefore_spec h
      rw [if_neg hbefore,
        if_neg (show ¬ (s.blocks x).endOffset ≤ (s.blocks c).startOffset from hbefore)]
      by_cases hafter : endOf s.blocks c ≤ startOf s.blocks x
      · rw [if_pos hafter,
          if_pos (show (s.blocks c).endOffset ≤ (s.blocks x).startOffset from hafter)]
        have hbehind := h.behind
        cases hnext : (s.blocks c).nextNested with
        | none =>
          rw [hnext] at hrest hbehind
          obtain rfl := hrest.eq_nil
          refine ⟨fun f' hf' => ?_, fun hno => absurd hno (by simp [Forest.insert])⟩
          obtain ⟨rest', hrest', rfl⟩ := Option.map_eq_some_iff.1 hf'
          obtain rfl := Option.some.inj hrest'
          exact hbehind.append_next.behind h
        | some next =>
          rw [hnext] at hbehind
          have hrestFuel : rest.nodes.length ≤ fuel := by omega
          obtain ⟨hsome, hnone⟩ := ihr hbehind hrestFuel (by omega)
          refine ⟨fun f' hf' => ?_, fun hno => hnone (Option.map_eq_none_iff.1 hno)⟩
          obtain ⟨rest', hrest', rfl⟩ := Option.map_eq_some_iff.1 hf'
          exact (hsome rest' hrest').behind h
      rw [if_neg hafter,
        if_neg (show ¬ (s.blocks c).endOffset ≤ (s.blocks x).startOffset from hafter)]
      by_cases hencloses : startOf s.blocks x ≤ startOf s.blocks c ∧
          endOf s.blocks c ≤ endOf s.blocks x
      · rw [if_pos hencloses, if_pos (show (s.blocks x).startOffset ≤ (s.blocks c).startOffset ∧
          (s.blocks c).endOffset ≤ (s.blocks x).endOffset from hencloses)]
        refine ⟨fun f' hf' => ?_, fun hno => ?_⟩
        · obtain ⟨⟨taken, left⟩, hsplit, rfl⟩ := Option.map_eq_some_iff.1 hf'
          exact nestExceptionBlocks_spec h (by omega) hsplit
        · exact nestExceptionBlocks_error h (by omega) (Option.map_eq_none_iff.1 hno)
      rw [if_neg hencloses, if_neg (show ¬ ((s.blocks x).startOffset ≤ (s.blocks c).startOffset ∧
          (s.blocks c).endOffset ≤ (s.blocks x).endOffset) from hencloses)]
      by_cases hinside : startOf s.blocks c ≤ startOf s.blocks x ∧
          endOf s.blocks x ≤ endOf s.blocks c
      · rw [if_pos hinside, if_pos (show (s.blocks c).startOffset ≤ (s.blocks x).startOffset ∧
          (s.blocks x).endOffset ≤ (s.blocks c).endOffset from hinside)]
        have hbelow := h.below
        cases hnested : (s.blocks c).nested with
        | none =>
          rw [hnested] at hchildren hbelow
          obtain rfl := hchildren.eq_nil
          refine ⟨fun f' hf' => ?_, fun hno => absurd hno (by simp [Forest.insert])⟩
          obtain ⟨children', hchildren', rfl⟩ := Option.map_eq_some_iff.1 hf'
          obtain rfl := Option.some.inj hchildren'
          exact hbelow.append_nested.below h
        | some nested =>
          rw [hnested] at hbelow
          have hchildrenFuel : children.nodes.length ≤ fuel := by omega
          obtain ⟨hsome, hnone⟩ := ihc hbelow hchildrenFuel (by omega)
          refine ⟨fun f' hf' => ?_, fun hno => hnone (Option.map_eq_none_iff.1 hno)⟩
          obtain ⟨children', hchildren', rfl⟩ := Option.map_eq_some_iff.1 hf'
          exact (hsome children' hchildren').below h
      rw [if_neg hinside, if_neg (show ¬ ((s.blocks c).startOffset ≤ (s.blocks x).startOffset ∧
          (s.blocks x).endOffset ≤ (s.blocks c).endOffset) from hinside)]
      exact ⟨fun f' hf' => absurd hf' (by simp), fun _ => rfl⟩

end

end Pnet.Engine.Coder
