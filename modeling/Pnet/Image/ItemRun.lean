import Pnet.Image.ItemSound

/-! What each operation on program items does to the table of links, and whole runs. -/
namespace Pnet.Image
open Pnet.Lib

variable {I A : Type} {s s' : Items I A} {t : LinkTable I A}
  {records : I → List Nat} {item : I} {cells : List Nat} {r : Nat}

/-! ### Slots of one item -/

theorem records_of_slots (h : Holds s t records) (hslots : (t item).slots ≠ []) :
    ∃ r cells, records item = r :: cells := by
  cases hrecords : records item with
  | nil => exact absurd (h.unlinked hrecords).slots hslots
  | cons r cells => exact ⟨r, cells, rfl⟩

theorem records_of_forward (h : Holds s t records) (hforward : (t item).forward ≠ none) :
    ∃ r cells, records item = r :: cells := by
  cases hrecords : records item with
  | nil => exact absurd (h.unlinked hrecords).forward hforward
  | cons r cells => exact ⟨r, cells, rfl⟩

theorem Linked.linkOf {links : ItemLinks I A} (h : Linked s item links r cells) :
    s.linkOf item = some r := by
  unfold Items.linkOf
  rw [h.item]

theorem takeSlot_append {x : I} {taken : List (Option I)} (htaken : none ∉ taken)
    (slots : List (Option I)) : takeSlot x (taken ++ slots) = taken ++ takeSlot x slots := by
  induction taken with
  | nil => rfl
  | cons slot taken ih =>
    cases slot with
    | none => exact absurd List.mem_cons_self htaken
    | some other =>
      rw [List.cons_append, takeSlot, ih fun hmem => htaken (List.mem_cons_of_mem _ hmem)]
      rfl

variable [DecidableEq I]

theorem clearSlot_find? (x : I) (f : Nat → Option I) (cells : List Nat) :
    (cells.find? (fun r => f r = some x) = none ∧ clearSlot x (cells.map f) = cells.map f) ∨
      ∃ pre c post, cells = pre ++ c :: post ∧ cells.find? (fun r => f r = some x) = some c ∧
        clearSlot x (cells.map f) = pre.map f ++ none :: post.map f := by
  induction cells with
  | nil => exact .inl ⟨rfl, rfl⟩
  | cons c cells ih =>
    rw [List.find?_cons, List.map_cons, clearSlot]
    by_cases hc : f c = some x
    · rw [if_pos hc, decide_eq_true hc]
      exact .inr ⟨[], c, cells, rfl, rfl, rfl⟩
    · rw [if_neg hc, decide_eq_false hc]
      cases ih with
      | inl hnone => exact .inl ⟨hnone.1, by rw [hnone.2]⟩
      | inr hsome =>
        obtain ⟨pre, c', post, rfl, hfind, hclear⟩ := hsome
        exact .inr ⟨c :: pre, c', post, rfl, hfind, by rw [hclear]; rfl⟩

theorem Holds.clearReverse (h : Holds s t records) (hrecords : records item = r :: cells) (x : I) :
    ∃ s', (∀ fuel, cells.length ≤ fuel →
        clearReverse fuel s x (s.nextLink r) = some s') ∧
      Holds s' (t.setSlots item (clearSlot x (t item).slots)) records := by
  have hlinked := h.linked hrecords
  have hseek : ∀ fuel, cells.length ≤ fuel → seek s.nextLink (fun r => s.linkedItem r = some x) fuel
      (s.nextLink r) = some (cells.find? fun r => s.linkedItem r = some x) :=
    fun fuel hfuel => hlinked.chain.of_cons.2.seek _ hfuel
  unfold Image.clearReverse
  rw [← hlinked.slots]
  cases clearSlot_find? x s.linkedItem cells with
  | inl hnone =>
    refine ⟨s, fun fuel hfuel => by rw [hseek fuel hfuel, hnone.1], ?_⟩
    rw [hnone.2, hlinked.slots, LinkTable.setSlots, Function.update_eq_self]
    exact h
  | inr hsome =>
    obtain ⟨pre, c, post, rfl, hfind, hclear⟩ := hsome
    refine ⟨s.setLinkedItem c none, fun fuel hfuel => by rw [hseek fuel hfuel, hfind], ?_⟩
    rw [hclear]
    exact h.setSlot hrecords none

theorem Holds.removeCurrent (h : Holds s t records) (hcons : t.Consistent)
    (hrecords : records item = r :: cells) :
    ∃ bound s', (∀ fuel, bound ≤ fuel → removeCurrent fuel s item r = some s') ∧
      Holds s' (t.detach item) records := by
  unfold Image.removeCurrent LinkTable.detach
  rw [(h.linked hrecords).forward]
  cases hforward : (t item).forward with
  | none => exact ⟨0, s, fun _ _ => rfl, h⟩
  | some target =>
    have hmem := (LinkTable.mem_slots_iff hcons item target).2 hforward
    obtain ⟨r2, cells2, hrecords2⟩ := records_of_slots h (List.ne_nil_of_mem hmem)
    obtain ⟨s', hclear, hholds⟩ := h.clearReverse hrecords2 item
    refine ⟨cells2.length, s', fun fuel hfuel => ?_, hholds⟩
    simp only [(h.linked hrecords2).linkOf]
    exact hclear fuel hfuel

/-- The walk has passed the cells `taken`; induction on those still ahead. -/
theorem Holds.addReverseFrom (h : Holds s t records) (x : I) (taken pre : List Nat)
    {rest : List Nat} {last : Nat} (hrecords : records item = r :: (taken ++ rest))
    (hlast : r :: taken = pre ++ [last]) (hrest : Chain s.nextLink (s.nextLink last) rest)
    (htaken : none ∉ taken.map s.linkedItem) :
    ∃ s' records', (∀ fuel, rest.length < fuel → addReverse s x fuel last = some s') ∧
      Holds s' (t.setSlots item (takeSlot x (t item).slots)) records' := by
  have hslots : takeSlot x (t item).slots =
      taken.map s.linkedItem ++ takeSlot x (rest.map s.linkedItem) := by
    rw [← (h.linked hrecords).slots, List.map_append, takeSlot_append htaken]
  induction rest generalizing taken pre last with
  | nil =>
    rw [List.append_nil] at hrecords
    refine ⟨(s.alloc ⟨none, some x, none⟩).setNextLink last (some s.freshLink),
      Function.update records item (r :: (taken ++ [s.freshLink])), fun fuel hfuel => ?_, ?_⟩
    · cases fuel with
      | zero => cases hfuel
      | succ fuel => simp only [addReverse, hrest.of_nil]
    · rw [hslots, List.map_nil, takeSlot, (h.linked hrecords).slots]
      exact h.append hrecords hlast (some x)
  | cons c rest ih =>
    obtain ⟨hnext, hrest⟩ := hrest.of_cons
    by_cases hfree : s.linkedItem c = none
    · refine ⟨s.setLinkedItem c (some x), records, fun fuel hfuel => ?_, ?_⟩
      · cases fuel with
        | zero => cases hfuel
        | succ fuel => simp only [addReverse, hnext, hfree, if_true]
      · rw [hslots, List.map_cons, hfree, takeSlot]
        exact h.setSlot hrecords (some x)
    · have htaken' : none ∉ (taken ++ [c]).map s.linkedItem := by
        rw [List.map_append, List.mem_append, List.map_singleton, List.mem_singleton]
        exact fun hmem => hmem.elim htaken fun heq => hfree heq.symm
      have hrecords' : records item = r :: (taken ++ [c] ++ rest) := by
        rw [hrecords, List.append_assoc]
        rfl
      have hslots' : takeSlot x (t item).slots =
          (taken ++ [c]).map s.linkedItem ++ takeSlot x (rest.map s.linkedItem) := by
        rw [← (h.linked hrecords').slots, List.map_append, takeSlot_append htaken']
      obtain ⟨s', records', hadd, hholds⟩ := ih (taken ++ [c]) (pre ++ [last])
        hrecords' (by rw [← hlast, List.cons_append]) hrest htaken' hslots'
      refine ⟨s', records', fun fuel hfuel => ?_, hholds⟩
      cases fuel with
      | zero => cases hfuel
      | succ fuel =>
        simp only [addReverse, hnext, hfree, if_false]
        exact hadd fuel (Nat.lt_of_succ_lt_succ hfuel)

theorem Holds.addReverse (h : Holds s t records) (hrecords : records item = r :: cells) (x : I) :
    ∃ s' records', (∀ fuel, cells.length < fuel → addReverse s x fuel r = some s') ∧
      Holds s' (t.setSlots item (takeSlot x (t item).slots)) records' :=
  h.addReverseFrom x [] [] hrecords rfl
    (h.linked hrecords).chain.of_cons.2 List.not_mem_nil

/-! ### Linking -/

theorem Holds.linkForward (h : Holds s t records) (hcons : t.Consistent) (item1 item2 : I) :
    ∃ bound s' records', (∀ fuel, bound ≤ fuel → linkForward fuel s item1 item2 = some s') ∧
      Holds s' ((t.detach item1).setForward item1 (some item2)) records' := by
  unfold Image.linkForward
  cases hrecords : records item1 with
  | nil =>
    have hunlinked := h.unlinked hrecords
    obtain ⟨first, hfirst, _⟩ := hunlinked.attrs
    have hdetach : t.detach item1 = t := by
      unfold LinkTable.detach
      rw [hunlinked.forward]
    rw [hdetach]
    exact ⟨0, _, _, fun _ _ => by rw [hfirst], h.newLink hrecords hfirst (some item2)⟩
  | cons r cells =>
    obtain ⟨bound, s', hremove, hholds⟩ := h.removeCurrent hcons hrecords
    refine ⟨bound, _, records, fun fuel hfuel => ?_, hholds.setForward hrecords (some item2)⟩
    rw [(h.linked hrecords).item]
    exact congrArg (Option.map _) (hremove fuel hfuel)

/-- The target may still lack a first record. -/
theorem Holds.linkReverse (h : Holds s t records) (item1 item2 : I) :
    ∃ bound s' records', (∀ fuel, bound ≤ fuel → linkReverse fuel s item1 item2 = some s') ∧
      Holds s' (t.setSlots item2 (takeSlot item1 (t item2).slots)) records' := by
  unfold Image.linkReverse
  cases hrecords : records item2 with
  | nil =>
    have hunlinked := h.unlinked hrecords
    obtain ⟨first, hfirst, _⟩ := hunlinked.attrs
    have hnew := h.newLink hrecords hfirst none
    have hsame : t.setForward item2 none = t := by
      unfold LinkTable.setForward
      rw [← hunlinked.forward]
      exact Function.update_eq_self ..
    rw [hsame] at hnew
    obtain ⟨s', records', hadd, hholds⟩ := hnew.addReverse (Function.update_self ..) item1
    refine ⟨1, s', records', fun fuel hfuel => ?_, hholds⟩
    rw [hfirst]
    exact hadd fuel hfuel
  | cons r cells =>
    obtain ⟨s', records', hadd, hholds⟩ := h.addReverse hrecords item1
    refine ⟨cells.length + 1, s', records', fun fuel hfuel => ?_, hholds⟩
    rw [(h.linked hrecords).item]
    exact hadd fuel hfuel

theorem Holds.link (h : Holds s t records) (hcons : t.Consistent) (item1 item2 : I) :
    ∃ bound s' records', (∀ fuel, bound ≤ fuel → ilProgramItemLink fuel s item1 item2 = some s') ∧
      Holds s' (t.link item1 item2) records' := by
  unfold ilProgramItemLink LinkTable.link
  by_cases heq : item1 = item2
  · simp only [if_pos heq]
    exact ⟨0, s, records, fun _ _ => rfl, h⟩
  · simp only [if_neg heq]
    obtain ⟨bound1, s1, records1, hforward, hholds1⟩ := h.linkForward hcons item1 item2
    obtain ⟨bound2, s2, records2, hreverse, hholds2⟩ := hholds1.linkReverse item1 item2
    refine ⟨max bound1 bound2, s2, records2, fun fuel hfuel => ?_, hholds2⟩
    rw [hforward fuel ((le_max_left ..).trans hfuel), Option.bind_eq_bind, Option.bind_some]
    exact hreverse fuel ((le_max_right ..).trans hfuel)

/-! ### Unlinking -/

/-- The table after the items in some slots of `item` have been released. -/
def released (t : LinkTable I A) (item : I) (slots : List (Option I)) (xs : List I) :
    LinkTable I A := fun i =>
  if i = item then { t i with slots := slots }
  else if i ∈ xs then { t i with forward := none }
  else t i

theorem released_nil (t : LinkTable I A) (item : I) :
    released t item (t item).slots [] = t := by
  funext i
  unfold released
  by_cases hi : i = item
  · rw [if_pos hi, hi]
  · rw [if_neg hi, if_neg List.not_mem_nil]

theorem released_cons (t : LinkTable I A) {item x : I} (hx : x ≠ item)
    (slots slots' : List (Option I)) (xs : List I) :
    released ((t.setForward x none).setSlots item slots') item slots xs =
      released t item slots (x :: xs) := by
  funext i
  unfold released LinkTable.setSlots LinkTable.setForward
  by_cases hi : i = item
  · subst hi
    simp [Ne.symm hx]
  · by_cases hix : i = x
    · subst hix
      simp [hi]
    · simp [hi, hix]

/-- Every slot from `rest` on leads to an item, and none of them to the item itself. -/
theorem Holds.unlinkAll (h : Holds s t records) (pre : List Nat) {rest : List Nat} (xs : List I)
    {start : Option Nat} (hrecords : records item = r :: (pre ++ rest))
    (hstart : Chain s.nextLink start rest) (hxs : rest.map s.linkedItem = xs.map some)
    (hlinked : ∀ x ∈ xs, x ≠ item ∧ records x ≠ []) :
    ∃ s', (∀ fuel, rest.length ≤ fuel → unlinkAll fuel s start = some s') ∧
      Holds s' (released t item (pre.map s.linkedItem ++ rest.map fun _ => none) xs) records := by
  induction rest generalizing s t pre xs start with
  | nil =>
    cases List.map_eq_nil_iff.1 hxs.symm
    refine ⟨s, fun fuel _ => ?_, ?_⟩
    · rw [hstart.of_nil]
      cases fuel <;> rfl
    · rw [List.append_nil] at hrecords
      rw [List.map_nil, List.append_nil, (h.linked hrecords).slots, released_nil]
      exact h
  | cons c rest ih =>
    cases xs with
    | nil => cases hxs
    | cons x xs =>
      obtain ⟨rfl, hrest⟩ := hstart.of_cons
      obtain ⟨hc, hxs⟩ := List.cons.inj hxs
      obtain ⟨hx, hrecordsx⟩ := hlinked x List.mem_cons_self
      obtain ⟨r2, cells2, hrecords2⟩ := List.exists_cons_of_ne_nil hrecordsx
      have hown : r2 ∉ pre ++ c :: rest := by
        intro hmem
        refine hx (h.apart (r := r2) ?_ ?_)
        · rw [hrecords2]
          exact List.mem_cons_self
        · rw [hrecords]
          exact List.mem_cons_of_mem _ hmem
      have hforward := h.setForward hrecords2 none
      have hboth := hforward.setSlot hrecords none
      have hsame : ∀ cs : List Nat, (∀ c' ∈ cs, c' ∈ pre ++ c :: rest) →
          cs.map (s.setLinkedItem r2 none).linkedItem = cs.map s.linkedItem := by
        intro cs hcs
        rw [Items.linkedItem_setLinkedItem]
        exact List.map_congr_left fun c' hc' =>
          Function.update_of_ne (fun heq : c' = r2 => hown (heq ▸ hcs c' hc')) ..
      have hnodup := (h.linked hrecords).chain.nodup
      have hlast : ∀ cs : List Nat, c ∉ cs →
          cs.map ((s.setLinkedItem r2 none).setLinkedItem c none).linkedItem =
            cs.map (s.setLinkedItem r2 none).linkedItem := by
        intro cs hcs
        rw [Items.linkedItem_setLinkedItem (r := c)]
        exact List.map_congr_left fun c' hc' =>
          Function.update_of_ne (fun heq : c' = c => hcs (heq ▸ hc')) ..
      have hcnot := (List.nodup_cons.1 (List.nodup_middle.1 (List.nodup_cons.1 hnodup).2)).1
      have hcpre : c ∉ pre := fun hmem => hcnot (List.mem_append_left _ hmem)
      have hcrest : c ∉ rest := fun hmem => hcnot (List.mem_append_right _ hmem)
      have hpre : pre.map (s.setLinkedItem r2 none).linkedItem = pre.map s.linkedItem :=
        hsame pre fun c' hc' => List.mem_append_left _ hc'
      have hpost : rest.map (s.setLinkedItem r2 none).linkedItem = rest.map s.linkedItem :=
        hsame rest fun c' hc' => List.mem_append_right _ (List.mem_cons_of_mem _ hc')
      rw [hpre, hpost] at hboth
      obtain ⟨s', hunlink, hholds⟩ := ih hboth (pre ++ [c]) xs
        (by rw [hrecords, List.append_assoc]; rfl)
        (by rw [Items.nextLink_setLinkedItem, Items.nextLink_setLinkedItem]; exact hrest)
        (by rw [hlast rest hcrest, hpost, hxs])
        (fun x' hx' => hlinked x' (List.mem_cons_of_mem _ hx'))
      refine ⟨s', fun fuel hfuel => ?_, ?_⟩
      · cases fuel with
        | zero => cases hfuel
        | succ fuel =>
          have hnext := hunlink fuel (Nat.le_of_succ_le_succ hfuel)
          simp only [Image.unlinkAll, hc, (h.linked hrecords2).linkOf, Option.bind_eq_bind,
            Option.bind_some, Items.nextLink_setLinkedItem]
          exact hnext
      · rw [released_cons t hx, List.map_append, hlast pre hcpre, hpre, List.map_singleton,
          Items.linkedItem_setLinkedItem, Function.update_self, List.append_assoc] at hholds
        exact hholds

omit [DecidableEq I] in
/-- A free slot is read as if it led to an item. -/
theorem unlinkAll_free {start : Option Nat} (hchain : Chain s.nextLink start cells)
    (hfree : none ∈ cells.map s.linkedItem) (fuel : Nat) : Image.unlinkAll fuel s start = none := by
  induction cells generalizing s start fuel with
  | nil => cases hfree
  | cons c cells ih =>
    obtain ⟨rfl, hrest⟩ := hchain.of_cons
    cases fuel with
    | zero => rfl
    | succ fuel =>
      unfold Image.unlinkAll
      cases hc : s.linkedItem c with
      | none => rfl
      | some x =>
        cases hx : s.linkOf x with
        | none => simp [hx]
        | some r2 =>
          have hkeep : ∀ c', s.linkedItem c' = none →
              ((s.setLinkedItem r2 none).setLinkedItem c none).linkedItem c' = none := by
            intro c' hc'
            rw [Items.linkedItem_setLinkedItem, Items.linkedItem_setLinkedItem]
            simp only [Function.update_apply]
            split_ifs <;> first | rfl | exact hc'
          have hfree' : none ∈ cells.map
              ((s.setLinkedItem r2 none).setLinkedItem c none).linkedItem := by
            rw [List.map_cons, List.mem_cons, hc] at hfree
            obtain ⟨c', hmem, hnone⟩ := List.mem_map.1 (hfree.resolve_left (by simp))
            exact List.mem_map.2 ⟨c', hmem, hkeep c' hnone⟩
          simp only [hx, Option.bind_eq_bind, Option.bind_some]
          refine ih ?_ hfree' fuel
          simp only [Items.nextLink_setLinkedItem]
          exact hrest

theorem forward_of_mem_slots (hcons : t.Consistent) {x : I}
    (hx : some x ∈ (t.detach item item).slots) : x ≠ item ∧ (t x).forward = some item := by
  rw [← List.count_pos_iff, LinkTable.count_detach hcons] at hx
  split_ifs at hx with hlinked
  · exact hlinked
  · cases hx

theorem slots_detach_self (hcons : t.Consistent) : (t.detach item item).slots = (t item).slots := by
  unfold LinkTable.detach
  cases hforward : (t item).forward with
  | none => rfl
  | some target =>
    have hne : item ≠ target := fun heq => hcons.2 item (hforward.trans (congrArg some heq.symm))
    rw [LinkTable.slots_setSlots, if_neg hne]

theorem exists_eq_map_some {slots : List (Option I)} (hfull : none ∉ slots) :
    ∃ xs : List I, slots = xs.map some := by
  induction slots with
  | nil => exact ⟨[], rfl⟩
  | cons slot slots ih =>
    obtain ⟨xs, rfl⟩ := ih fun hmem => hfull (List.mem_cons_of_mem _ hmem)
    cases slot with
    | none => exact absurd List.mem_cons_self hfull
    | some x => exact ⟨x :: xs, rfl⟩

/-- The first half of `_ILProgramItemUnlink`: the forward link. -/
theorem Holds.unlinkForward (h : Holds s t records) (hcons : t.Consistent)
    (hrecords : records item = r :: cells) :
    ∃ bound s', (∀ fuel, bound ≤ fuel → ((Image.removeCurrent fuel s item r).map fun s' =>
        if s.linkedItem r = none then s' else s'.setLinkedItem r none) = some s') ∧
      Holds s' ((t.detach item).setForward item none) records := by
  obtain ⟨bound, s', hremove, hholds⟩ := h.removeCurrent hcons hrecords
  by_cases hnone : s.linkedItem r = none
  · refine ⟨bound, s', fun fuel hfuel => ?_, ?_⟩
    · rw [hremove fuel hfuel, Option.map_some, if_pos hnone]
    · have hsame : (t.detach item).setForward item none = t.detach item := by
        have hforward : (t.detach item item).forward = none := by
          rw [LinkTable.forward_detach, ← (h.linked hrecords).forward, hnone]
        unfold LinkTable.setForward
        rw [← hforward]
        exact Function.update_eq_self ..
      rw [hsame]
      exact hholds
  · refine ⟨bound, _, fun fuel hfuel => ?_, hholds.setForward hrecords none⟩
    rw [hremove fuel hfuel, Option.map_some, if_neg hnone]

theorem Holds.unlink (h : Holds s t records) (hcons : t.Consistent)
    (hfull : none ∉ (t item).slots) :
    ∃ bound s', (∀ fuel, bound ≤ fuel → ilProgramItemUnlink fuel s item = some s') ∧
      Holds s' (t.unlink item) records := by
  unfold ilProgramItemUnlink
  cases hrecords : records item with
  | nil =>
    have hunlinked := h.unlinked hrecords
    obtain ⟨first, hfirst, _⟩ := hunlinked.attrs
    have hsame : t.unlink item = t := by
      have hdetach : t.detach item = t := by
        unfold LinkTable.detach
        rw [hunlinked.forward]
      have hforward : t.setForward item none = t := by
        unfold LinkTable.setForward
        rw [← hunlinked.forward]
        exact Function.update_eq_self ..
      unfold LinkTable.unlink
      rw [hdetach, hforward]
      funext i
      unfold LinkTable.release
      rw [hunlinked.slots, if_neg List.not_mem_nil]
      by_cases hi : i = item
      · subst hi
        rw [if_pos rfl, hunlinked.slots, List.map_nil, ← hunlinked.slots]
      · rw [if_neg hi]
    rw [hsame]
    exact ⟨0, s, fun _ _ => by rw [hfirst], h⟩
  | cons r cells =>
    obtain ⟨bound, s1, hremove, hholds⟩ := h.unlinkForward hcons hrecords
    have hlinked := hholds.linked hrecords
    have hslots : cells.map s1.linkedItem = (t.detach item item).slots := by
      rw [hlinked.slots, LinkTable.slots_setForward]
    obtain ⟨xs, hxs⟩ := exists_eq_map_some ((slots_detach_self hcons).symm ▸ hfull)
    have hsources : ∀ x ∈ xs, x ≠ item ∧ records x ≠ [] := by
      intro x hx
      obtain ⟨hne, hforward⟩ := forward_of_mem_slots hcons (hxs ▸ List.mem_map_of_mem hx)
      obtain ⟨r2, cells2, hrecords2⟩ := records_of_forward h (by rw [hforward]; simp)
      exact ⟨hne, by rw [hrecords2]; exact List.cons_ne_nil _ _⟩
    obtain ⟨s2, hunlink, hholds2⟩ := hholds.unlinkAll [] xs hrecords
      hlinked.chain.of_cons.2 (hslots.trans hxs) hsources
    refine ⟨max bound cells.length, s2, fun fuel hfuel => ?_, ?_⟩
    · simp only [(h.linked hrecords).item, hremove fuel ((le_max_left ..).trans hfuel),
        Option.bind_eq_bind, Option.bind_some]
      exact hunlink fuel ((le_max_right ..).trans hfuel)
    · have hreleased : released ((t.detach item).setForward item none) item
          ([].map s1.linkedItem ++ cells.map fun _ => none) xs = t.unlink item := by
        funext i
        unfold released LinkTable.unlink LinkTable.release
        by_cases hi : i = item
        · subst hi
          rw [if_pos rfl, if_pos rfl, LinkTable.slots_setForward, ← hslots, List.map_map]
          rfl
        · have hmem : i ∈ xs ↔ some i ∈ (t.detach item item).slots := by
            rw [hxs]
            simp
          simp only [if_neg hi, LinkTable.slots_setForward, hmem]
      rwa [hreleased] at hholds2

theorem Holds.unlink_free (h : Holds s t records) (hcons : t.Consistent)
    (hfree : none ∈ (t item).slots) :
    ∃ bound, ∀ fuel, bound ≤ fuel → ilProgramItemUnlink fuel s item = none := by
  obtain ⟨r, cells, hrecords⟩ := records_of_slots h (List.ne_nil_of_mem hfree)
  obtain ⟨bound, s1, hremove, hholds⟩ := h.unlinkForward hcons hrecords
  have hlinked := hholds.linked hrecords
  refine ⟨bound, fun fuel hfuel => ?_⟩
  unfold ilProgramItemUnlink
  simp only [(h.linked hrecords).item, hremove fuel hfuel, Option.bind_eq_bind, Option.bind_some]
  refine unlinkAll_free hlinked.chain.of_cons.2 ?_ fuel
  rw [hlinked.slots, LinkTable.slots_setForward, slots_detach_self hcons]
  exact hfree

/-! ### Adding an attribute -/

variable [DecidableEq A]

omit [DecidableEq I] [DecidableEq A] in
theorem Chain.lastAttr {first : A} {pre : List A} {last : A}
    (h : Chain s.nextAttr (some first) (pre ++ [last])) {fuel : Nat} (hfuel : pre.length < fuel) :
    lastAttr s fuel first = some last := by
  induction pre generalizing first fuel with
  | nil =>
    obtain ⟨hfirst, hrest⟩ := h.of_cons
    cases hfirst
    cases fuel with
    | zero => cases hfuel
    | succ fuel => simp only [Image.lastAttr, hrest.of_nil]
  | cons attr pre ih =>
    obtain ⟨hfirst, hrest⟩ := h.of_cons
    cases hfirst
    cases fuel with
    | zero => cases hfuel
    | succ fuel =>
      cases hnext : s.nextAttr attr with
      | none =>
        rw [hnext] at hrest
        cases pre <;> cases hrest
      | some next =>
        rw [hnext] at hrest
        simp only [Image.lastAttr, hnext]
        exact ih hrest (Nat.lt_of_succ_lt_succ hfuel)

omit [DecidableEq I] in
/-- A new attribute after the last one of a list that is not empty. -/
theorem chain_addAttr {first attr : A} {attrs : List A}
    (h : Chain s.nextAttr (some first) attrs) (hnew : attr ∉ attrs) :
    ∃ last, last ∈ attrs ∧
      (∀ fuel, attrs.length ≤ fuel → lastAttr (s.setNextAttr attr none) fuel first = some last) ∧
      Chain ((s.setNextAttr attr none).setNextAttr last (some attr)).nextAttr (some first)
        (attrs ++ [attr]) := by
  have hne : attrs ≠ [] := by
    rintro rfl
    cases h
  obtain ⟨pre, last, rfl⟩ : ∃ pre last, attrs = pre ++ [last] :=
    ⟨_, _, (List.dropLast_append_getLast hne).symm⟩
  have hkeep : Chain (s.setNextAttr attr none).nextAttr (some first) (pre ++ [last]) :=
    h.congr fun a ha => Function.update_of_ne (fun heq : a = attr => hnew (heq ▸ ha)) ..
  refine ⟨last, by simp, fun fuel hfuel => Chain.lastAttr hkeep ?_, ?_⟩
  · rw [List.length_append] at hfuel
    exact hfuel
  · rw [List.append_assoc]
    exact h.append_cell hnew

omit [DecidableEq I] in
theorem chain_firstAttr (attr : A) :
    Chain (s.setNextAttr attr none).nextAttr (some attr) [attr] := by
  apply Chain.cons
  show Chain _ (Function.update s.nextAttr attr none attr) []
  rw [Function.update_self]
  exact .nil

/-- Attributes of other items are not written to. -/
theorem Holds.setAttrs (h : Holds s t records) {attr : A} (hnew : ∀ i, attr ∉ (t i).attrs)
    (hself : ItemHolds s' item { t item with attrs := (t item).attrs ++ [attr] } (records item))
    (hitem : ∀ i, i ≠ item → s'.item i = s.item i)
    (hlink : ∀ i, i ≠ item → ∀ r ∈ records i, s'.link r = s.link r)
    (hattr : ∀ a, a ≠ attr → a ∉ (t item).attrs → s'.nextAttr a = s.nextAttr a)
    (hfresh : s.freshLink ≤ s'.freshLink) : Holds s' (t.addAttr item attr) records := by
  have hset := h.set hself hitem hlink (fun i hi a ha => hattr a (fun heq => hnew i (heq ▸ ha))
    fun hmem => hi (h.attrsApart ha hmem)) (fun r hr => .inl hr) hfresh fun a ha => ?_
  · rwa [Function.update_eq_self] at hset
  · cases List.mem_append.1 ha with
    | inl hold => exact .inl hold
    | inr hlast => exact .inr (List.mem_singleton.1 hlast ▸ hnew)

/-- The lists of attributes with one that is written after its last. -/
theorem setAttrs_frame {attr last : A} {attrs : List A} (hlast : last ∈ attrs) {a : A}
    (ha : a ≠ attr) (hmem : a ∉ attrs) :
    ((s.setNextAttr attr none).setNextAttr last (some attr)).nextAttr a = s.nextAttr a := by
  have hal : a ≠ last := fun heq => hmem (heq ▸ hlast)
  show Function.update (Function.update s.nextAttr attr none) last (some attr) a = _
  rw [Function.update_of_ne hal, Function.update_of_ne ha]

theorem Holds.addAttribute (h : Holds s t records) (item : I) {attr : A}
    (hnew : ∀ i, attr ∉ (t i).attrs) :
    ∃ bound s', (∀ fuel, bound ≤ fuel → ilProgramItemAddAttribute fuel s item attr = some s') ∧
      Holds s' (t.addAttr item attr) records := by
  have hsame : ∀ i, ((s.setOwner attr item).setNextAttr attr none).item i = s.item i := fun _ => rfl
  unfold ilProgramItemAddAttribute
  simp only [hsame]
  cases hrecords : records item with
  | nil =>
    have hunlinked := h.unlinked hrecords
    obtain ⟨first, hfirst, hchain⟩ := hunlinked.attrs
    cases first with
    | none =>
      have hempty : (t item).attrs = [] := hchain.unique .nil
      refine ⟨0, ((s.setOwner attr item).setNextAttr attr none).setItem item (.attrs (some attr)),
        fun _ _ => by rw [hfirst], ?_⟩
      refine h.setAttrs hnew ?_ (fun i hi => Function.update_of_ne hi ..) (fun _ _ _ _ => rfl)
        (fun a ha _ => Function.update_of_ne ha ..) le_rfl
      rw [hrecords, hempty]
      exact ⟨⟨some attr, Function.update_self .., chain_firstAttr (s := s) attr⟩,
        hunlinked.forward, hunlinked.slots⟩
    | some first =>
      obtain ⟨last, hlast, hwalk, hchain'⟩ :=
        chain_addAttr (s := s.setOwner attr item) hchain (hnew item)
      refine ⟨(t item).attrs.length,
        ((s.setOwner attr item).setNextAttr attr none).setNextAttr last (some attr),
        fun fuel hfuel => by simp only [hfirst, hwalk fuel hfuel, Option.map_some], ?_⟩
      refine h.setAttrs hnew ?_ (fun _ _ => rfl) (fun _ _ _ _ => rfl)
        (fun a ha hmem => setAttrs_frame (s := s) hlast ha hmem) le_rfl
      rw [hrecords]
      exact ⟨⟨some first, hfirst, hchain'⟩, hunlinked.forward, hunlinked.slots⟩
  | cons r cells =>
    have hlinked := h.linked hrecords
    have hchain := hlinked.attrs
    have hlink : (((s.setOwner attr item).setNextAttr attr none).link r).customAttrs =
        (s.link r).customAttrs := rfl
    simp only [hlinked.item, hlink]
    cases hfirst : (s.link r).customAttrs with
    | none =>
      rw [hfirst] at hchain
      have hempty : (t item).attrs = [] := hchain.unique .nil
      refine ⟨0, ((s.setOwner attr item).setNextAttr attr none).setCustomAttrs r (some attr),
        fun _ _ => rfl, ?_⟩
      refine h.setAttrs hnew ?_ (fun _ _ => rfl) ?_ (fun a ha _ => Function.update_of_ne ha ..)
        le_rfl
      · rw [hrecords, hempty]
        refine ⟨hlinked.item, ?_, ?_, ?_, ?_⟩
        · rw [Items.nextLink_setCustomAttrs]
          exact hlinked.chain
        · rw [Items.linkedItem_setCustomAttrs]
          exact hlinked.forward
        · rw [Items.linkedItem_setCustomAttrs]
          exact hlinked.slots
        · rw [Items.customAttrs_setCustomAttrs]
          exact chain_firstAttr (s := s) attr
      · intro i hi c hc
        refine Function.update_of_ne (fun heq : c = r => hi (h.apart hc ?_)) ..
        rw [hrecords, heq]
        exact List.mem_cons_self
    | some first =>
      rw [hfirst] at hchain
      obtain ⟨last, hlast, hwalk, hchain'⟩ :=
        chain_addAttr (s := s.setOwner attr item) hchain (hnew item)
      refine ⟨(t item).attrs.length,
        ((s.setOwner attr item).setNextAttr attr none).setNextAttr last (some attr),
        fun fuel hfuel => by simp only [hwalk fuel hfuel, Option.map_some], ?_⟩
      refine h.setAttrs hnew ?_ (fun _ _ => rfl) (fun _ _ _ _ => rfl)
        (fun a ha hmem => setAttrs_frame (s := s) hlast ha hmem) le_rfl
      rw [hrecords]
      exact ⟨hlinked.item, hlinked.chain, hlinked.forward, hlinked.slots, hfirst ▸ hchain'⟩

end Pnet.Image
