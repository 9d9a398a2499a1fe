import Pnet.Image.ItemRun

/-! Runs of links, unlinks and attribute additions: what holds of the items after each,
and which runs come to an end. -/
namespace Pnet.Image
open Pnet.Lib

variable {I A : Type} {s : Items I A}

/-- `slots` are the items that the reverse links of an item lead to. -/
def ReverseLinks (s : Items I A) (item : I) (slots : List (Option I)) : Prop :=
  match s.item item with
  | .attrs _ => slots = []
  | .link r => ∃ cells, Chain s.nextLink (s.nextLink r) cells ∧ slots = cells.map s.linkedItem

/-- `attrs` are the attributes of an item, in order. -/
def Attributes (s : Items I A) (item : I) (attrs : List A) : Prop :=
  match s.item item with
  | .attrs first => Chain s.nextAttr first attrs
  | .link r => Chain s.nextAttr (s.link r).customAttrs attrs

/-- The forward and the reverse links agree, each item has the attributes `attrs`, and
every walk over the links comes to an end. -/
structure LinksSound (s : Items I A) (attrs : I → List A) [DecidableEq I] : Prop where
  reverse : ∀ b, ∃ slots, ReverseLinks s b slots ∧
    ∀ a, slots.count (some a) = if ilProgramItemLinkedTo s a = some b then 1 else 0
  attributes : ∀ i, Attributes s i (attrs i)
  resolve : Acyclic (ilProgramItemLinkedTo s) → ∀ i, ∃ bound last,
    (∀ fuel, bound ≤ fuel → ilProgramItemResolve s fuel i = some last) ∧
      ilProgramItemLinkedTo s last = none
  linkedBackTo : ∀ {Im : Type} [DecidableEq Im] (imageOf : I → Im) (i : I) (image : Im),
    ∃ bound found, (∀ fuel, bound ≤ fuel →
        ilProgramItemLinkedBackTo imageOf fuel s i image = some found) ∧
      (∀ a, found = some a → ilProgramItemLinkedTo s a = some i ∧ imageOf a = image) ∧
      (found = none → ∀ a, ilProgramItemLinkedTo s a = some i → imageOf a ≠ image)

variable {t : LinkTable I A} {records : I → List Nat} {item : I}

theorem Holds.linkedTo (h : Holds s t records) (i : I) :
    ilProgramItemLinkedTo s i = (t i).forward := by
  unfold ilProgramItemLinkedTo
  cases hrecords : records i with
  | nil =>
    have hunlinked := h.unlinked hrecords
    obtain ⟨first, hfirst, _⟩ := hunlinked.attrs
    rw [hfirst, hunlinked.forward]
  | cons r cells =>
    have hlinked := h.linked hrecords
    rw [hlinked.item]
    exact hlinked.forward

theorem Holds.reverseLinks (h : Holds s t records) (i : I) : ReverseLinks s i (t i).slots := by
  unfold ReverseLinks
  cases hrecords : records i with
  | nil =>
    have hunlinked := h.unlinked hrecords
    obtain ⟨first, hfirst, _⟩ := hunlinked.attrs
    rw [hfirst]
    exact hunlinked.slots
  | cons r cells =>
    have hlinked := h.linked hrecords
    rw [hlinked.item]
    exact ⟨cells, hlinked.chain.of_cons.2, hlinked.slots.symm⟩

theorem Holds.attributes (h : Holds s t records) (i : I) : Attributes s i (t i).attrs := by
  unfold Attributes
  cases hrecords : records i with
  | nil =>
    have hunlinked := h.unlinked hrecords
    obtain ⟨first, hfirst, hchain⟩ := hunlinked.attrs
    rw [hfirst]
    exact hchain
  | cons r cells =>
    have hlinked := h.linked hrecords
    rw [hlinked.item]
    exact hlinked.attrs

theorem resolve_ends (hacyclic : Acyclic (ilProgramItemLinkedTo s)) {touched : Finset I}
    (htouched : ∀ i, ilProgramItemLinkedTo s i ≠ none → i ∈ touched) (i : I) :
    ∃ bound last, (∀ fuel, bound ≤ fuel → ilProgramItemResolve s fuel i = some last) ∧
      ilProgramItemLinkedTo s last = none := by
  induction i using hacyclic.induction htouched with
  | hstep i ih =>
    cases hnext : ilProgramItemLinkedTo s i with
    | none =>
      refine ⟨1, i, fun fuel hfuel => ?_, hnext⟩
      cases fuel with
      | zero => cases hfuel
      | succ fuel => rw [ilProgramItemResolve, hnext]
    | some j =>
      obtain ⟨bound, last, hresolve, hlast⟩ := ih j hnext
      refine ⟨bound + 1, last, fun fuel hfuel => ?_, hlast⟩
      cases fuel with
      | zero => cases hfuel
      | succ fuel =>
        rw [ilProgramItemResolve, hnext]
        exact hresolve fuel (Nat.le_of_succ_le_succ hfuel)

variable [DecidableEq I]

theorem Holds.linkedBackTo (h : Holds s t records) (hcons : t.Consistent) {Im : Type}
    [DecidableEq Im] (imageOf : I → Im) (i : I) (image : Im) :
    ∃ bound found, (∀ fuel, bound ≤ fuel →
        ilProgramItemLinkedBackTo imageOf fuel s i image = some found) ∧
      (∀ a, found = some a → (t a).forward = some i ∧ imageOf a = image) ∧
      (found = none → ∀ a, (t a).forward = some i → imageOf a ≠ image) := by
  unfold ilProgramItemLinkedBackTo
  simp only [← LinkTable.mem_slots_iff hcons]
  cases hrecords : records i with
  | nil =>
    have hunlinked := h.unlinked hrecords
    obtain ⟨first, hfirst, _⟩ := hunlinked.attrs
    refine ⟨0, none, fun _ _ => by rw [hfirst], fun a ha => absurd ha (by simp), fun _ a ha => ?_⟩
    rw [hunlinked.slots] at ha
    cases ha
  | cons r cells =>
    have hlinked := h.linked hrecords
    rw [hlinked.item, ← hlinked.slots]
    refine ⟨cells.length, (cells.find? fun r => (s.linkedItem r).any fun from1 =>
      imageOf from1 = image).bind s.linkedItem, fun fuel hfuel => ?_, fun a ha => ?_,
      fun hnone a ha => ?_⟩
    · simp only [hlinked.chain.of_cons.2.seek _ hfuel, Option.map_some]
    · obtain ⟨c, hc, hitem⟩ := Option.bind_eq_some_iff.1 ha
      refine ⟨List.mem_map.2 ⟨c, List.mem_of_find?_eq_some hc, hitem⟩, ?_⟩
      simpa [hitem] using List.find?_some hc
    · obtain ⟨c, hc, hitem⟩ := List.mem_map.1 ha
      intro himage
      cases hfind : cells.find? fun r => (s.linkedItem r).any fun from1 => imageOf from1 = image with
      | none => exact absurd (List.find?_eq_none.1 hfind c hc) (by simp [hitem, himage])
      | some c' =>
        rw [hfind, Option.bind_some] at hnone
        have hany := List.find?_some hfind
        rw [hnone] at hany
        cases hany

theorem Holds.sound (h : Holds s t records) (hcons : t.Consistent) (hfinite : t.Finite)
    {attrs : I → List A} (hattrs : ∀ i, (t i).attrs = attrs i) : LinksSound s attrs := by
  refine ⟨fun b => ⟨_, h.reverseLinks b, fun a => ?_⟩, fun i => hattrs i ▸ h.attributes i,
    fun hacyclic i => ?_, fun imageOf i image => ?_⟩
  · rw [h.linkedTo]
    exact hcons.1 a b
  · obtain ⟨touched, htouched⟩ := hfinite
    exact resolve_ends hacyclic (fun i hi => htouched i (h.linkedTo i ▸ hi)) i
  · simp only [h.linkedTo]
    exact h.linkedBackTo hcons imageOf i image

/-! ### Runs -/

variable [DecidableEq A] {ops : List (ItemOp I A)}

theorem holds_init (I A : Type) : Holds (.init I A) (fun _ => ⟨none, [], []⟩) fun _ => [] :=
  ⟨fun _ => ⟨⟨none, rfl, .nil⟩, rfl, rfl⟩, fun h => absurd h List.not_mem_nil,
    fun h => absurd h List.not_mem_nil, fun h => absurd h List.not_mem_nil⟩

theorem runItems_concat (fuel : Nat) (ops : List (ItemOp I A)) (op : ItemOp I A) :
    runItems fuel (ops ++ [op]) = (runItems fuel ops).bind (ItemOp.apply fuel · op) := by
  simp [runItems]

omit [DecidableEq A] in
theorem unlinksFull_concat (op : ItemOp I A) :
    UnlinksFull (ops ++ [op]) ↔
      UnlinksFull ops ∧ ∀ item, op = .unlink item → none ∉ (trackItems ops item).slots := by
  constructor
  · refine fun h => ⟨fun pre item post hops => h pre item (post ++ [op]) ?_, fun item hop => ?_⟩
    · rw [hops, List.append_assoc]
      rfl
    · exact h ops item [] (by rw [hop])
  · rintro ⟨hfull, hop⟩ pre item post hops
    cases post using List.reverseRecOn with
    | nil =>
      obtain ⟨rfl, hlast⟩ := List.append_inj' hops rfl
      exact hop item (List.cons.inj hlast).1
    | append_singleton post last =>
      rw [← List.cons_append, ← List.append_assoc] at hops
      obtain ⟨hpre, _⟩ := List.append_inj' hops rfl
      exact hfull pre item post hpre

omit [DecidableEq A] in
theorem mem_attrs_added {i : I} {attr : A} (h : attr ∈ (trackItems ops i).attrs) :
    attr ∈ added ops := by
  rw [attrs_trackItems] at h
  obtain ⟨op, hop, hattr⟩ := List.mem_filterMap.1 h
  refine List.mem_filterMap.2 ⟨op, hop, ?_⟩
  cases op with
  | link item1 item2 => cases hattr
  | unlink item => cases hattr
  | addAttribute item a =>
    simp only at hattr ⊢
    split_ifs at hattr
    exact hattr

/-- One more operation, which must not unlink an item with a free slot. -/
theorem Holds.apply {t : LinkTable I A} (h : Holds s t records) (hcons : t.Consistent)
    {op : ItemOp I A} (hfull : ∀ item, op = .unlink item → none ∉ (t item).slots)
    (hnew : ∀ item attr, op = .addAttribute item attr → ∀ i, attr ∉ (t i).attrs) :
    ∃ bound s' records', (∀ fuel, bound ≤ fuel → op.apply fuel s = some s') ∧
      Holds s' (op.track t) records' := by
  cases op with
  | link item1 item2 => exact h.link hcons item1 item2
  | unlink item =>
    obtain ⟨bound, s', hunlink, hholds⟩ := h.unlink hcons (hfull item rfl)
    exact ⟨bound, s', records, hunlink, hholds⟩
  | addAttribute item attr =>
    obtain ⟨bound, s', hadd, hholds⟩ := h.addAttribute item (hnew item attr rfl)
    exact ⟨bound, s', records, hadd, hholds⟩

theorem holds_runItems (hadded : (added ops).Nodup) (hfull : UnlinksFull ops) :
    ∃ bound s records, (∀ fuel, bound ≤ fuel → runItems fuel ops = some s) ∧
      Holds s (trackItems ops) records := by
  induction ops using List.reverseRecOn with
  | nil => exact ⟨0, _, _, fun _ _ => rfl, holds_init I A⟩
  | append_singleton ops op ih =>
    obtain ⟨hfull, hop⟩ := (unlinksFull_concat op).1 hfull
    rw [added, List.filterMap_append, ← added] at hadded
    obtain ⟨hadded, _, hdisjoint⟩ := List.nodup_append.1 hadded
    obtain ⟨bound, s, records, hrun, hholds⟩ := ih hadded hfull
    have hnew : ∀ item attr, op = .addAttribute item attr →
        ∀ i, attr ∉ (trackItems ops i).attrs := by
      rintro item attr rfl i hmem
      exact hdisjoint attr (mem_attrs_added hmem) attr (by simp) rfl
    obtain ⟨bound', s', records', happly, hholds'⟩ :=
      hholds.apply (consistent_trackItems ops) hop hnew
    refine ⟨max bound bound', s', records', fun fuel hfuel => ?_, trackItems_concat ops op ▸ hholds'⟩
    rw [runItems_concat, hrun fuel ((le_max_left ..).trans hfuel), Option.bind_some]
    exact happly fuel ((le_max_right ..).trans hfuel)

theorem runItems_stuck (ops : List (ItemOp I A)) (hadded : (added ops).Nodup) (hnot : ¬ UnlinksFull ops) :
    ∃ bound, ∀ fuel, bound ≤ fuel → runItems fuel ops = none := by
  induction ops using List.reverseRecOn with
  | nil => exact absurd (fun pre item post h => absurd h (by simp)) hnot
  | append_singleton ops op ih =>
    have hinit : (added ops).Nodup := by
      rw [added, List.filterMap_append, ← added] at hadded
      exact hadded.of_append_left
    by_cases hfull : UnlinksFull ops
    · obtain ⟨bound, s, records, hrun, hholds⟩ := holds_runItems hinit hfull
      obtain ⟨item, rfl, hfree⟩ : ∃ item, op = .unlink item ∧
          none ∈ (trackItems ops item).slots := by
        by_contra hall
        exact hnot ((unlinksFull_concat op).2
          ⟨hfull, fun item hop hfree => hall ⟨item, hop, hfree⟩⟩)
      obtain ⟨bound', hunlink⟩ := hholds.unlink_free (consistent_trackItems ops) hfree
      refine ⟨max bound bound', fun fuel hfuel => ?_⟩
      rw [runItems_concat, hrun fuel ((le_max_left ..).trans hfuel), Option.bind_some]
      exact hunlink fuel ((le_max_right ..).trans hfuel)
    · obtain ⟨bound, hrun⟩ := ih hinit hfull
      refine ⟨bound, fun fuel hfuel => ?_⟩
      rw [runItems_concat, hrun fuel hfuel, Option.bind_none]

/-- A run ends, with the links and attributes as they should be, exactly when every
`_ILProgramItemUnlink` finds an item without a free slot among its reverse links. -/
theorem runItems_sound_iff (ops : List (ItemOp I A)) (hadded : (added ops).Nodup) :
    (∃ bound, ∀ fuel, bound ≤ fuel →
      ∃ s, runItems fuel ops = some s ∧ LinksSound s (addedTo · ops)) ↔ UnlinksFull ops := by
  constructor
  · rintro ⟨bound, hrun⟩
    by_contra hnot
    obtain ⟨bound', hstuck⟩ := runItems_stuck ops hadded hnot
    obtain ⟨s, hs, _⟩ := hrun (max bound bound') (le_max_left ..)
    rw [hstuck _ (le_max_right ..)] at hs
    cases hs
  · intro hfull
    obtain ⟨bound, s, records, hrun, hholds⟩ := holds_runItems hadded hfull
    exact ⟨bound, fun fuel hfuel => ⟨s, hrun fuel hfuel, hholds.sound (consistent_trackItems ops)
      (finite_trackItems ops) (attrs_trackItems ops)⟩⟩

/-- Two items linked to a third one, which then gets an attribute and is unlinked. -/
def sampleOps : List (ItemOp Nat Nat) :=
  [.addAttribute 0 7, .link 1 0, .link 2 0, .addAttribute 0 8, .unlink 0]

theorem runItems_sound_sample :
    (∃ bound, ∀ fuel, bound ≤ fuel →
      ∃ s, runItems fuel sampleOps = some s ∧ LinksSound s (addedTo · sampleOps)) ↔
        UnlinksFull sampleOps :=
  runItems_sound_iff sampleOps (by decide)

/-- The second time, the slot that the first `_ILProgramItemUnlink` has freed is read. -/
theorem not_runItems_sound : ¬ ∀ ops : List (ItemOp Nat Nat), (added ops).Nodup →
    ∃ bound, ∀ fuel, bound ≤ fuel →
      ∃ s, runItems fuel ops = some s ∧ LinksSound s (addedTo · ops) := by
  intro h
  obtain ⟨bound, hrun⟩ := h [.link 1 0, .unlink 0, .unlink 0] (by decide)
  obtain ⟨bound', hstuck⟩ := runItems_stuck
    ([.link 1 0, .unlink 0, .unlink 0] : List (ItemOp Nat Nat)) (by decide) fun hfull => hfull [.link 1 0, .unlink 0] 0 [] rfl (by decide)
  obtain ⟨s, hs, _⟩ := hrun (max bound bound') (le_max_left ..)
  rw [hstuck _ (le_max_right ..)] at hs
  cases hs

end Pnet.Image
