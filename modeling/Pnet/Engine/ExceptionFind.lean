import Pnet.Engine.ExceptionSound

/-! The tree of the exception blocks of a method that is accepted. The offsets of try blocks
and handlers are checked one against the other, but a filter is taken to go from its own
offset to that of its handler, and nothing says that it starts first. -/
namespace Pnet.Engine.Coder
open Pnet.Lib Pnet.Image

variable {s : ILCoderExceptions} {f : Forest Nat} {parent start : Option Nat} {fuel : Nat}
  {lo hi a b : Nat}

/-- `a` is `b` or one of the parents above it. -/
def Encloses (s : ILCoderExceptions) (a b : Nat) : Prop :=
  Relation.ReflTransGen (fun b p => (s.blocks b).parent = some p) b a

theorem Holds.encloses {p : Nat} (h : Holds s.blocks (some p) start f) (hb : b ∈ f.nodes) :
    Encloses s p b := by
  induction f generalizing p start with
  | nil => cases hb
  | cons c children rest ihc ihr =>
    obtain ⟨_, hparent, hchildren, hrest⟩ := h
    rcases List.mem_cons.1 hb with rfl | hb
    · exact Relation.ReflTransGen.single hparent
    · rcases List.mem_append.1 hb with hb | hb
      · exact (ihc hchildren hb).tail hparent
      · exact ihr hrest hb

theorem Holds.above (h : Holds s.blocks parent start f) (habove : f.Above a b) :
    Encloses s a b := by
  induction f generalizing parent start with
  | nil => cases habove
  | cons c children rest ihc ihr =>
    obtain ⟨_, _, hchildren, hrest⟩ := h
    rcases habove with ⟨rfl, rfl | hb⟩ | habove | habove
    · exact Relation.ReflTransGen.refl
    · exact hchildren.encloses hb
    · exact ihc hchildren habove
    · exact ihr hrest habove

/-- A block lies in its parent, unless it is one of the first list. -/
theorem Holds.contained (h : Holds s.blocks parent start f)
    (hwithin : f.Within (startOf s.blocks) (endOf s.blocks) lo hi) (hb : b ∈ f.nodes) :
    (s.blocks b).parent = parent ∨ ∃ p ∈ f.nodes, (s.blocks b).parent = some p ∧
      startOf s.blocks p ≤ startOf s.blocks b ∧ endOf s.blocks b ≤ endOf s.blocks p := by
  induction f generalizing parent start lo hi with
  | nil => cases hb
  | cons c children rest ihc ihr =>
    obtain ⟨_, hparent, hchildren, hrest⟩ := h
    obtain ⟨_, _, hin, hbehind⟩ := hwithin
    rcases List.mem_cons.1 hb with rfl | hb
    · exact .inl hparent
    rcases List.mem_append.1 hb with hb | hb
    · rcases ihc hchildren hin hb with hc | ⟨p, hp, hrel⟩
      · obtain ⟨hs, _, he⟩ := hin.mem hb
        exact .inr ⟨c, List.mem_cons_self, hc, hs, he⟩
      · exact .inr ⟨p, List.mem_cons_of_mem _ (List.mem_append_left _ hp), hrel⟩
    · rcases ihr hrest hbehind hb with hp | ⟨p, hp, hrel⟩
      · exact .inl hp
      · exact .inr ⟨p, List.mem_cons_of_mem _ (List.mem_append_right _ hp), hrel⟩

/-- Of two blocks with one parent one lies behind the other. -/
theorem Holds.disjoint (h : Holds s.blocks parent start f)
    (hwithin : f.Within (startOf s.blocks) (endOf s.blocks) lo hi) (hnodup : f.nodes.Nodup)
    (hout : ∀ p, parent = some p → p ∉ f.nodes) (ha : a ∈ f.nodes) (hb : b ∈ f.nodes)
    (hne : a ≠ b) (hsame : (s.blocks a).parent = (s.blocks b).parent) :
    endOf s.blocks a ≤ startOf s.blocks b ∨ endOf s.blocks b ≤ startOf s.blocks a := by
  induction f generalizing parent start lo hi with
  | nil => cases ha
  | cons c children rest ihc ihr =>
    obtain ⟨_, hparent, hchildren, hrest⟩ := h
    obtain ⟨_, _, hin, hbehind⟩ := hwithin
    have hnodup' := List.nodup_cons.1 hnodup
    have hchild : ∀ d ∈ children.nodes, (s.blocks d).parent ≠ parent := by
      intro d hd heq
      rcases hchildren.contained hin hd with hc | ⟨p, hp, hpar, _⟩
      · exact hout c (heq.symm.trans hc) List.mem_cons_self
      · exact hout p (heq.symm.trans hpar) (List.mem_cons_of_mem _ (List.mem_append_left _ hp))
    have hsplit : ∀ d ∈ rest.nodes, ∀ d', d' = c ∨ d' ∈ children.nodes →
        endOf s.blocks d' ≤ startOf s.blocks d := by
      intro d hd d' hd'
      have hstart := (hbehind.mem hd).1
      rcases hd' with rfl | hd'
      · exact hstart
      · exact (hin.mem hd').2.2.trans hstart
    rcases List.mem_cons.1 ha with rfl | ha'
    · rcases List.mem_cons.1 hb with rfl | hb'
      · exact absurd rfl hne
      · rcases List.mem_append.1 hb' with hb' | hb'
        · exact absurd (hsame.symm.trans hparent) (hchild b hb')
        · exact .inl (hsplit b hb' a (.inl rfl))
    rcases List.mem_append.1 ha' with ha' | ha'
    · rcases List.mem_cons.1 hb with rfl | hb'
      · exact absurd (hsame.trans hparent) (hchild a ha')
      · rcases List.mem_append.1 hb' with hb' | hb'
        · refine ihc hchildren hin hnodup'.2.of_append_left (fun p hp hmem => ?_) ha' hb'
          obtain rfl := Option.some.inj hp
          exact hnodup'.1 (List.mem_append_left _ hmem)
        · exact .inl (hsplit b hb' a (.inr ha'))
    · rcases List.mem_cons.1 hb with rfl | hb'
      · exact .inr (hsplit a ha' b (.inl rfl))
      · rcases List.mem_append.1 hb' with hb' | hb'
        · exact .inr (hsplit a ha' b (.inr hb'))
        · refine ihr hrest hbehind hnodup'.2.of_append_right (fun p hp hmem => ?_) ha' hb'
          exact hout p hp (List.mem_cons_of_mem _ (List.mem_append_right _ hmem))

/-! ### Limits -/

theorem lastFrom_spec (h : Holds s.blocks parent (some b) f) (hfuel : f.nodes.length ≤ fuel) :
    ∃ last, lastFrom s fuel b = .ok last ∧ ∀ lo hi,
      f.Within (startOf s.blocks) (endOf s.blocks) lo hi →
      f.Within (startOf s.blocks) (endOf s.blocks) lo (endOf s.blocks last) := by
  induction f generalizing b fuel with
  | nil => cases h
  | cons c children rest _ ih =>
    obtain ⟨hc, _, _, hrest⟩ := h
    obtain rfl := Option.some.inj hc
    cases fuel with
    | zero => cases hfuel
    | succ fuel =>
      unfold lastFrom
      cases hnext : (s.blocks b).nextNested with
      | none =>
        rw [hnext] at hrest
        obtain rfl := hrest.eq_nil
        exact ⟨b, rfl, fun lo hi hwithin =>
          ⟨hwithin.1, hwithin.2.1, hwithin.2.2.1, le_refl (endOf s.blocks b)⟩⟩
      | some next =>
        rw [hnext] at hrest
        have hlen : rest.nodes.length ≤ fuel := by
          simp only [Forest.nodes, List.length_cons, List.length_append] at hfuel
          omega
        obtain ⟨last, hrun, hlast⟩ := ih hrest hlen
        exact ⟨last, hrun, fun lo hi hwithin =>
          ⟨hwithin.1, hwithin.2.1, hwithin.2.2.1, hlast _ hi hwithin.2.2.2⟩⟩

theorem checkLimits_spec (h : Linked s f []) (len : ILUInt32) :
    checkLimits s len = .error .branchErr ∨
      (checkLimits s len = .ok () ∧ (Ordered s f →
        f.Within (startOf s.blocks) (endOf s.blocks) 0 len.toNat)) := by
  unfold checkLimits
  have hholds := h.holds
  cases hfirst : s.firstBlock with
  | none =>
    rw [hfirst] at hholds
    obtain rfl := hholds.eq_nil
    exact .inr ⟨rfl, fun _ => Nat.zero_le _⟩
  | some first =>
    rw [hfirst] at hholds
    obtain ⟨last, hrun, hlast⟩ := lastFrom_spec hholds h.length_le
    dsimp only
    by_cases hstart : len < (s.blocks first).startOffset
    · rw [if_pos hstart]
      exact .inl rfl
    rw [if_neg hstart, hrun]
    by_cases hend : len < (s.blocks last).endOffset
    · refine .inl ?_
      rw [ok_bind, if_pos hend]
      rfl
    · refine .inr ⟨?_, fun hordered => (hlast _ _ hordered).mono le_rfl (not_lt.1 hend)⟩
      rw [ok_bind, if_neg hend]
      rfl

/-! ### Search -/

theorem findFrom_spec (h : Holds s.blocks parent start f) (hfuel : f.nodes.length ≤ fuel)
    (offset : ILUInt32) (prevEB : Option Nat) : findFrom s offset fuel prevEB start =
      .ok ((f.innermost (startOf s.blocks) (endOf s.blocks) offset.toNat).or prevEB) := by
  induction f generalizing parent start fuel prevEB with
  | nil =>
    obtain rfl : start = none := h
    cases fuel <;> rfl
  | cons c children rest ihc ihr =>
    obtain ⟨rfl, _, hchildren, hrest⟩ := h
    cases fuel with
    | zero => cases hfuel
    | succ fuel =>
      simp only [Forest.nodes, List.length_cons, List.length_append] at hfuel
      unfold findFrom Forest.innermost
      by_cases hbefore : offset.toNat < startOf s.blocks c
      · rw [if_pos hbefore, if_pos (show offset < (s.blocks c).startOffset from hbefore)]
        rfl
      rw [if_neg hbefore, if_neg (show ¬ offset < (s.blocks c).startOffset from hbefore)]
      by_cases hafter : endOf s.blocks c ≤ offset.toNat
      · rw [if_pos hafter, if_pos (show (s.blocks c).endOffset ≤ offset from hafter)]
        exact ihr hrest (by omega) prevEB
      · rw [if_neg hafter, if_neg (show ¬ (s.blocks c).endOffset ≤ offset from hafter),
          ihc hchildren (by omega)]
        cases children.innermost (startOf s.blocks) (endOf s.blocks) offset.toNat <;> rfl

/-! ### The tree of a method -/

/-- What the tree promises. The blocks are those of the array, each once in the links. -/
structure TreeSound (s : ILCoderExceptions) (codeLen : ILUInt32) : Prop where
  linked : ∃ f, Holds s.blocks none s.firstBlock f ∧ f.nodes.Perm (List.range s.numBlocks)
  bounds : ∀ b < s.numBlocks, (s.blocks b).startOffset ≤ (s.blocks b).endOffset ∧
    (s.blocks b).endOffset ≤ codeLen
  siblings : ∀ a < s.numBlocks, ∀ b < s.numBlocks, a ≠ b →
    (s.blocks a).parent = (s.blocks b).parent →
    (s.blocks a).endOffset ≤ (s.blocks b).startOffset ∨
      (s.blocks b).endOffset ≤ (s.blocks a).startOffset
  children : ∀ b < s.numBlocks, ∀ p, (s.blocks b).parent = some p → p < s.numBlocks ∧
    (s.blocks p).startOffset ≤ (s.blocks b).startOffset ∧
    (s.blocks b).endOffset ≤ (s.blocks p).endOffset
  found : ∀ offset, ∃ result, ilCoderFindExceptionBlock s offset = .ok result ∧
    (∀ b, result = some b → b < s.numBlocks ∧
      ((s.blocks b).startOffset ≤ offset ∧ offset < (s.blocks b).endOffset) ∧
      ∀ a < s.numBlocks, (s.blocks a).startOffset ≤ offset → offset < (s.blocks a).endOffset →
        Encloses s a b) ∧
    (result = none → ∀ a < s.numBlocks,
      ¬ ((s.blocks a).startOffset ≤ offset ∧ offset < (s.blocks a).endOffset))

theorem treeSound_of_within (h : Linked s f []) {codeLen : ILUInt32}
    (hwithin : f.Within (startOf s.blocks) (endOf s.blocks) 0 codeLen.toNat) :
    TreeSound s codeLen := by
  have hperm : f.nodes.Perm (List.range s.numBlocks) := by simpa using h.nodes
  have hnodup : f.nodes.Nodup := by simpa using h.nodup
  have hmem : ∀ {b}, b < s.numBlocks → b ∈ f.nodes :=
    fun hb => hperm.symm.subset (List.mem_range.2 hb)
  have hlt : ∀ {b}, b ∈ f.nodes → b < s.numBlocks := fun hb => List.mem_range.1 (hperm.subset hb)
  refine ⟨⟨f, h.holds, hperm⟩, fun b hb => (hwithin.mem (hmem hb)).2, fun a ha b hb hne hsame => ?_,
    fun b hb p hp => ?_, fun offset => ?_⟩
  · exact h.holds.disjoint hwithin hnodup (fun p hp => by cases hp) (hmem ha) (hmem hb) hne hsame
  · rcases h.holds.contained hwithin (hmem hb) with hnone | ⟨p', hp', hpar, hrel⟩
    · rw [hp] at hnone
      cases hnone
    · rw [hp] at hpar
      obtain rfl := Option.some.inj hpar
      exact ⟨hlt hp', hrel⟩
  · obtain ⟨hsome, hnone⟩ := Forest.innermost_spec hwithin offset.toNat
    refine ⟨_, findFrom_spec h.holds h.length_le offset none, fun b hb => ?_, fun hno a ha => ?_⟩
    · rw [Option.or_none] at hb
      obtain ⟨hbmem, hin, habove⟩ := hsome b hb
      exact ⟨hlt hbmem, hin, fun a ha hs he => h.holds.above (habove a (hmem ha) ⟨hs, he⟩)⟩
    · rw [Option.or_none] at hno
      exact hnone hno a (hmem ha)

theorem setupExceptions_spec (accessible : ILUInt32 → Bool) (codeLen : ILUInt32)
    (exceptions : List ILException) :
    setupExceptions accessible codeLen exceptions = .error .branchErr ∨
      setupExceptions accessible codeLen exceptions = .error .typeErr ∨
      ∃ s f, setupExceptions accessible codeLen exceptions = .ok s ∧ Linked s f [] ∧
        ((∀ ex ∈ exceptions, IsFilter ex → ex.extraArg ≤ ex.handlerOffset) →
          f.Within (startOf s.blocks) (endOf s.blocks) 0 codeLen.toNat) ∧
        (∀ ex ∈ exceptions, IsFilter ex → HasBlock s ex.extraArg ex.handlerOffset) := by
  have hempty : Linked ⟨fun _ => ⟨.tryBlock, 0, 0, none, none, none⟩, none, 0, fun _ => [],
      fun _ => none⟩ .nil [] :=
    ⟨rfl, List.Perm.refl _, fun b hb => absurd hb List.not_mem_nil⟩
  unfold setupExceptions
  rcases addExceptionBlocks_spec accessible exceptions hempty
    with herr | herr | ⟨s, f, hrun, hstep, hblocks⟩
  · rw [herr]
    exact .inl rfl
  · rw [herr]
    exact .inr (.inl rfl)
  rw [hrun, ok_bind]
  rcases checkLimits_spec hstep.linked codeLen with herr | ⟨hcheck, hwithin⟩
  · rw [herr]
    exact .inl rfl
  · rw [hcheck]
    exact .inr (.inr ⟨s, f, rfl, hstep.linked,
      fun hfilters => hwithin (hstep.ordered hfilters (Nat.zero_le _)), hblocks⟩)

/-- The tree of a method that is accepted is sound if and only if every filter starts in front
of its handler. -/
theorem setupExceptions_sound_iff (accessible : ILUInt32 → Bool) (codeLen : ILUInt32)
    (exceptions : List ILException) :
    setupExceptions accessible codeLen exceptions ≠ .error .endless ∧
      ∀ s, setupExceptions accessible codeLen exceptions = .ok s → (TreeSound s codeLen ↔
        ∀ ex ∈ exceptions, IsFilter ex → ex.extraArg ≤ ex.handlerOffset) := by
  rcases setupExceptions_spec accessible codeLen exceptions
    with herr | herr | ⟨s, f, hrun, hlinked, hwithin, hblocks⟩
  · rw [herr]
    exact ⟨by simp, fun s hs => by cases hs⟩
  · rw [herr]
    exact ⟨by simp, fun s hs => by cases hs⟩
  · rw [hrun]
    refine ⟨by simp, fun s' hs' => ?_⟩
    obtain rfl := Except.ok.inj hs'
    refine ⟨fun hsound ex hex hfilter => ?_, fun hfilters =>
      treeSound_of_within hlinked (hwithin hfilters)⟩
    obtain ⟨b, hb, hstart, hend⟩ := hblocks ex hex hfilter
    have hbounds := (hsound.bounds b hb).1
    rwa [hstart, hend] at hbounds

theorem setupExceptions_sound_sample : ∃ s, setupExceptions (fun _ => true) 10
    [⟨0x0001, 0, 1, 3, 1, 2⟩, ⟨0x0002, 0, 4, 4, 2, 0⟩] = .ok s ∧ TreeSound s 10 := by
  obtain ⟨_, hiff⟩ := setupExceptions_sound_iff (fun _ => true) 10
    [⟨0x0001, 0, 1, 3, 1, 2⟩, ⟨0x0002, 0, 4, 4, 2, 0⟩]
  have hok : (setupExceptions (fun _ => true) 10
    [⟨0x0001, 0, 1, 3, 1, 2⟩, ⟨0x0002, 0, 4, 4, 2, 0⟩]).toBool = true := by decide
  cases hrun : setupExceptions (fun _ => true) 10
    [⟨0x0001, 0, 1, 3, 1, 2⟩, ⟨0x0002, 0, 4, 4, 2, 0⟩] with
  | error e =>
    rw [hrun] at hok
    cases hok
  | ok s => exact ⟨s, rfl, (hiff s hrun).2 (by decide)⟩

/-- A filter from 5 to its handler at 2. -/
def lateFilter : ILException := ⟨0x0001, 0, 1, 2, 1, 5⟩

theorem not_setupExceptions_sound : ¬ ∀ (accessible : ILUInt32 → Bool) (codeLen : ILUInt32)
    (exceptions : List ILException) (s : ILCoderExceptions),
    setupExceptions accessible codeLen exceptions = .ok s → TreeSound s codeLen := by
  intro hsound
  rcases setupExceptions_spec (fun _ => true) 10 [lateFilter]
    with herr | herr | ⟨s, f, hrun, _, _, hblocks⟩
  · exact absurd (congrArg Except.toBool herr) (by decide)
  · exact absurd (congrArg Except.toBool herr) (by decide)
  · obtain ⟨b, hb, hstart, hend⟩ := hblocks lateFilter List.mem_cons_self (by decide)
    have hbounds := ((hsound _ _ _ s hrun).bounds b hb).1
    rw [hstart, hend] at hbounds
    exact absurd hbounds (by decide)

end Pnet.Engine.Coder
