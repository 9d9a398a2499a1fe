import Pnet.Image.ItemLinks
import Pnet.Lib.Acyclic

/-! The records of program items hold a table of links: every item has a chain of records
of its own, with its forward link in the first and its slots in the others. -/
namespace Pnet.Image
open Pnet.Lib

variable {I A : Type}

/-- An item that has no records yet. -/
structure Unlinked (s : Items I A) (item : I) (links : ItemLinks I A) : Prop where
  attrs : ∃ first, s.item item = .attrs first ∧ Chain s.nextAttr first links.attrs
  forward : links.forward = none
  slots : links.slots = []

/-- An item with the record `r` and a record for each of its slots. -/
structure Linked (s : Items I A) (item : I) (links : ItemLinks I A) (r : Nat) (cells : List Nat) :
    Prop where
  item : s.item item = .link r
  chain : Chain s.nextLink (some r) (r :: cells)
  forward : s.linkedItem r = links.forward
  slots : cells.map s.linkedItem = links.slots
  attrs : Chain s.nextAttr (s.link r).customAttrs links.attrs

def ItemHolds (s : Items I A) (item : I) (links : ItemLinks I A) : List Nat → Prop
  | [] => Unlinked s item links
  | r :: cells => Linked s item links r cells

structure Holds (s : Items I A) (t : LinkTable I A) (records : I → List Nat) : Prop where
  items : ∀ i, ItemHolds s i (t i) (records i)
  apart : ∀ {i j r}, r ∈ records i → r ∈ records j → i = j
  fresh : ∀ {i r}, r ∈ records i → r < s.freshLink
  attrsApart : ∀ {i j a}, a ∈ (t i).attrs → a ∈ (t j).attrs → i = j

variable {s s' : Items I A} {t : LinkTable I A} {records : I → List Nat} {item : I}
  {links : ItemLinks I A} {own cells : List Nat} {r : Nat}

theorem Holds.linked (h : Holds s t records) (hrecords : records item = r :: cells) :
    Linked s item (t item) r cells := by
  have hitem := h.items item
  rwa [hrecords] at hitem

theorem Holds.unlinked (h : Holds s t records) (hrecords : records item = []) :
    Unlinked s item (t item) := by
  have hitem := h.items item
  rwa [hrecords] at hitem

/-- Only the memory of the item itself matters. -/
theorem ItemHolds.congr (h : ItemHolds s item links own) (hitem : s'.item item = s.item item)
    (hlink : ∀ r ∈ own, s'.link r = s.link r)
    (hattr : ∀ a ∈ links.attrs, s'.nextAttr a = s.nextAttr a) : ItemHolds s' item links own := by
  cases own with
  | nil =>
    obtain ⟨first, hfirst, hchain⟩ := h.attrs
    exact ⟨⟨first, hitem.trans hfirst, hchain.congr hattr⟩, h.forward, h.slots⟩
  | cons r cells =>
    have hnext : ∀ c ∈ r :: cells, s'.nextLink c = s.nextLink c :=
      fun c hc => congrArg ILProgramItemLink.next (hlink c hc)
    have hlinked : ∀ c ∈ r :: cells, s'.linkedItem c = s.linkedItem c :=
      fun c hc => congrArg ILProgramItemLink.linkedItem (hlink c hc)
    refine ⟨hitem.trans h.item, h.chain.congr hnext, ?_, ?_, ?_⟩
    · rw [hlinked r List.mem_cons_self, h.forward]
    · rw [← h.slots]
      exact List.map_congr_left fun c hc => hlinked c (List.mem_cons_of_mem _ hc)
    · rw [hlink r List.mem_cons_self]
      exact h.attrs.congr hattr

/-! ### Writing to one record -/

namespace Items

@[simp] theorem nextLink_setLinkedItem (r : Nat) (v : Option I) :
    (s.setLinkedItem r v).nextLink = s.nextLink := by
  funext r'
  by_cases hr : r' = r
  · subst hr
    simp [nextLink, setLinkedItem, setLink]
  · simp [nextLink, setLinkedItem, setLink, hr]

theorem linkedItem_setLinkedItem (r : Nat) (v : Option I) :
    (s.setLinkedItem r v).linkedItem = Function.update s.linkedItem r v := by
  funext r'
  by_cases hr : r' = r
  · subst hr
    simp [linkedItem, setLinkedItem, setLink]
  · simp [linkedItem, setLinkedItem, setLink, hr]

theorem customAttrs_setLinkedItem (r r' : Nat) (v : Option I) :
    ((s.setLinkedItem r v).link r').customAttrs = (s.link r').customAttrs := by
  by_cases hr : r' = r
  · subst hr
    simp [setLinkedItem, setLink]
  · simp [setLinkedItem, setLink, hr]

@[simp] theorem nextLink_setCustomAttrs (r : Nat) (first : Option A) :
    (s.setCustomAttrs r first).nextLink = s.nextLink := by
  funext r'
  by_cases hr : r' = r
  · subst hr
    simp [nextLink, setCustomAttrs, setLink]
  · simp [nextLink, setCustomAttrs, setLink, hr]

@[simp] theorem linkedItem_setCustomAttrs (r : Nat) (first : Option A) :
    (s.setCustomAttrs r first).linkedItem = s.linkedItem := by
  funext r'
  by_cases hr : r' = r
  · subst hr
    simp [linkedItem, setCustomAttrs, setLink]
  · simp [linkedItem, setCustomAttrs, setLink, hr]

theorem customAttrs_setCustomAttrs (r : Nat) (first : Option A) :
    ((s.setCustomAttrs r first).link r).customAttrs = first := by
  simp [setCustomAttrs, setLink]

end Items

theorem Linked.update_forward (h : Linked s item links r cells) (v : Option I) :
    Linked (s.setLinkedItem r v) item { links with forward := v } r cells := by
  have hnot := (List.nodup_cons.1 h.chain.nodup).1
  refine ⟨h.item, ?_, ?_, ?_, ?_⟩
  · rw [Items.nextLink_setLinkedItem]
    exact h.chain
  · rw [Items.linkedItem_setLinkedItem, Function.update_self]
  · rw [Items.linkedItem_setLinkedItem, ← h.slots]
    exact List.map_congr_left fun c hc =>
      Function.update_of_ne (fun heq : c = r => hnot (heq ▸ hc)) ..
  · rw [Items.customAttrs_setLinkedItem]
    exact h.attrs

theorem Linked.update_slot {pre post : List Nat} {c : Nat}
    (h : Linked s item links r (pre ++ c :: post)) (v : Option I) :
    Linked (s.setLinkedItem c v) item
      { links with slots := pre.map s.linkedItem ++ v :: post.map s.linkedItem } r
      (pre ++ c :: post) := by
  have hnodup := List.nodup_cons.1 h.chain.nodup
  have hc := (List.nodup_cons.1 (List.nodup_middle.1 hnodup.2)).1
  have hrc : r ≠ c := fun heq => hnodup.1 (by simp [heq])
  refine ⟨h.item, ?_, ?_, ?_, ?_⟩
  · rw [Items.nextLink_setLinkedItem]
    exact h.chain
  · rw [Items.linkedItem_setLinkedItem, Function.update_of_ne hrc]
    exact h.forward
  · have hpre : pre.map (Function.update s.linkedItem c v) = pre.map s.linkedItem :=
      List.map_congr_left fun x hx =>
        Function.update_of_ne (fun heq : x = c => hc (by simp [← heq, hx])) ..
    have hpost : post.map (Function.update s.linkedItem c v) = post.map s.linkedItem :=
      List.map_congr_left fun x hx =>
        Function.update_of_ne (fun heq : x = c => hc (by simp [← heq, hx])) ..
    rw [Items.linkedItem_setLinkedItem, List.map_append, List.map_cons, hpre, hpost,
      Function.update_self]
  · rw [Items.customAttrs_setLinkedItem]
    exact h.attrs

/-! ### Writing to one item -/

variable [DecidableEq I]

/-- One item is changed, and new records are new. -/
theorem Holds.set (h : Holds s t records) (hself : ItemHolds s' item links own)
    (hitem : ∀ i, i ≠ item → s'.item i = s.item i)
    (hlink : ∀ i, i ≠ item → ∀ r ∈ records i, s'.link r = s.link r)
    (hattr : ∀ i, i ≠ item → ∀ a ∈ (t i).attrs, s'.nextAttr a = s.nextAttr a)
    (hown : ∀ r ∈ own, r ∈ records item ∨ r = s.freshLink ∧ s.freshLink < s'.freshLink)
    (hfresh : s.freshLink ≤ s'.freshLink)
    (hattrs : ∀ a ∈ links.attrs, a ∈ (t item).attrs ∨ ∀ i, a ∉ (t i).attrs) :
    Holds s' (Function.update t item links) (Function.update records item own) := by
  have hother : ∀ i, i ≠ item → ∀ r ∈ own, r ∉ records i := by
    intro i hi r hr hmem
    cases hown r hr with
    | inl hold => exact hi (h.apart hmem hold)
    | inr hnew => exact absurd (h.fresh hmem) (by omega)
  have hotherAttr : ∀ i, i ≠ item → ∀ a ∈ links.attrs, a ∉ (t i).attrs := by
    intro i hi a ha hmem
    cases hattrs a ha with
    | inl hold => exact hi (h.attrsApart hmem hold)
    | inr hnew => exact hnew i hmem
  refine ⟨?_, ?_, ?_, ?_⟩
  · intro i
    by_cases hi : i = item
    · subst hi
      simpa using hself
    · rw [Function.update_of_ne hi, Function.update_of_ne hi]
      exact (h.items i).congr (hitem i hi) (hlink i hi) (hattr i hi)
  · intro i j r hri hrj
    by_cases hi : i = item
    · by_cases hj : j = item
      · rw [hi, hj]
      · rw [hi, Function.update_self] at hri
        rw [Function.update_of_ne hj] at hrj
        exact absurd hrj (hother j hj r hri)
    · rw [Function.update_of_ne hi] at hri
      by_cases hj : j = item
      · rw [hj, Function.update_self] at hrj
        exact absurd hri (hother i hi r hrj)
      · rw [Function.update_of_ne hj] at hrj
        exact h.apart hri hrj
  · intro i r hr
    by_cases hi : i = item
    · rw [hi, Function.update_self] at hr
      cases hown r hr with
      | inl hold => exact (h.fresh hold).trans_le hfresh
      | inr hnew => omega
    · rw [Function.update_of_ne hi] at hr
      exact (h.fresh hr).trans_le hfresh
  · intro i j a hai haj
    by_cases hi : i = item
    · by_cases hj : j = item
      · rw [hi, hj]
      · rw [hi, Function.update_self] at hai
        rw [Function.update_of_ne hj] at haj
        exact absurd haj (hotherAttr j hj a hai)
    · rw [Function.update_of_ne hi] at hai
      by_cases hj : j = item
      · rw [hj, Function.update_self] at haj
        exact absurd hai (hotherAttr i hi a haj)
      · rw [Function.update_of_ne hj] at haj
        exact h.attrsApart hai haj

/-- A record of one item is written, which keeps the others. -/
theorem Holds.setLinkedItem (h : Holds s t records) {c : Nat} {v : Option I}
    (hrecords : records item = r :: cells) (hc : c ∈ r :: cells)
    (hattrs : links.attrs = (t item).attrs)
    (hself : Linked (s.setLinkedItem c v) item links r cells) :
    Holds (s.setLinkedItem c v) (Function.update t item links) records := by
  have hitem : ItemHolds (s.setLinkedItem c v) item links (r :: cells) := hself
  have hset := h.set hitem
    (fun _ _ => rfl) (fun i hi r' hr' => ?_) (fun _ _ _ _ => rfl) (fun r' hr' => ?_) le_rfl
    (fun a ha => .inl (hattrs ▸ ha))
  · rwa [← hrecords, Function.update_eq_self] at hset
  · refine Function.update_of_ne (fun heq => hi (h.apart hr' ?_)) ..
    rw [hrecords, heq]
    exact hc
  · rw [hrecords]
    exact .inl hr'

theorem Holds.setForward (h : Holds s t records) (hrecords : records item = r :: cells)
    (v : Option I) : Holds (s.setLinkedItem r v) (t.setForward item v) records :=
  h.setLinkedItem hrecords List.mem_cons_self rfl ((h.linked hrecords).update_forward v)

theorem Holds.setSlot (h : Holds s t records) {pre post : List Nat} {c : Nat}
    (hrecords : records item = r :: (pre ++ c :: post)) (v : Option I) :
    Holds (s.setLinkedItem c v)
      (t.setSlots item (pre.map s.linkedItem ++ v :: post.map s.linkedItem)) records :=
  h.setLinkedItem hrecords (by simp) rfl ((h.linked hrecords).update_slot v)

/-! ### New records -/

omit [DecidableEq I] in
theorem Items.link_alloc (link : ILProgramItemLink I A) :
    (s.alloc link).link = Function.update s.link s.freshLink link := rfl

/-- An item gets its first record. -/
theorem Holds.newLink (h : Holds s t records) (hrecords : records item = []) {first : Option A}
    (hfirst : s.item item = .attrs first) (v : Option I) :
    Holds (s.newLink item first v) (t.setForward item v)
      (Function.update records item [s.freshLink]) := by
  obtain ⟨first', hfirst', hchain⟩ := (h.unlinked hrecords).attrs
  obtain rfl : first = first' := AttrsOrLink.attrs.inj (hfirst.symm.trans hfirst')
  refine h.set (show ItemHolds _ item _ [s.freshLink] from ?_) ?_ ?_ ?_ ?_ ?_ ?_
  · refine ⟨Function.update_self .., .cons ?_, ?_, ?_, ?_⟩
    · rw [show (s.newLink item first v).nextLink s.freshLink = none by
        simp [Items.newLink, Items.setItem, Items.nextLink, Items.link_alloc]]
      exact .nil
    · simp [Items.newLink, Items.setItem, Items.linkedItem, Items.link_alloc]
    · rw [List.map_nil]
      exact (h.unlinked hrecords).slots.symm
    · rw [show ((s.newLink item first v).link s.freshLink).customAttrs = first by
        simp [Items.newLink, Items.setItem, Items.link_alloc]]
      exact hchain
  · exact fun i hi => Function.update_of_ne hi ..
  · intro i hi r hr
    exact Function.update_of_ne (h.fresh hr).ne ..
  · exact fun _ _ _ _ => rfl
  · exact fun r hr => .inr ⟨List.mem_singleton.1 hr, Nat.lt_succ_self _⟩
  · exact Nat.le_succ _
  · exact fun a ha => .inl ha

/-- A record for one more slot comes after the last one. -/
theorem Holds.append (h : Holds s t records) (hrecords : records item = r :: cells)
    {pre : List Nat} {last : Nat} (hlast : r :: cells = pre ++ [last]) (v : Option I) :
    Holds ((s.alloc ⟨none, v, none⟩).setNextLink last (some s.freshLink))
      (t.setSlots item ((t item).slots ++ [v]))
      (Function.update records item (r :: (cells ++ [s.freshLink]))) := by
  have hlinked := h.linked hrecords
  have hold : ∀ c ∈ r :: cells, c < s.freshLink := fun c hc => h.fresh (hrecords ▸ hc)
  have hnew : s.freshLink ∉ pre ++ [last] :=
    fun hmem => Nat.lt_irrefl _ (hold _ (hlast ▸ hmem))
  have hlastOld : last < s.freshLink := hold last (hlast ▸ by simp)
  have hnext : ((s.alloc ⟨none, v, none⟩).setNextLink last (some s.freshLink)).nextLink =
      Function.update (Function.update s.nextLink s.freshLink none) last (some s.freshLink) := by
    funext c
    by_cases hc : c = last
    · subst hc
      simp [Items.nextLink, Items.setNextLink, Items.setLink]
    · by_cases hcnew : c = s.freshLink
      · subst hcnew
        simp [Items.nextLink, Items.setNextLink, Items.setLink, Items.alloc, hc]
      · simp [Items.nextLink, Items.setNextLink, Items.setLink, Items.alloc, hc, hcnew]
  have hitem : ((s.alloc ⟨none, v, none⟩).setNextLink last (some s.freshLink)).linkedItem =
      Function.update s.linkedItem s.freshLink v := by
    funext c
    by_cases hcnew : c = s.freshLink
    · subst hcnew
      simp [Items.linkedItem, Items.setNextLink, Items.setLink, Items.alloc, hlastOld.ne']
    · by_cases hc : c = last
      · subst hc
        simp [Items.linkedItem, Items.setNextLink, Items.setLink, Items.alloc, hcnew]
      · simp [Items.linkedItem, Items.setNextLink, Items.setLink, Items.alloc, hc, hcnew]
  have hcustom : ∀ c, c < s.freshLink →
      (((s.alloc ⟨none, v, none⟩).setNextLink last (some s.freshLink)).link c).customAttrs =
        (s.link c).customAttrs := by
    intro c hc
    by_cases heq : c = last
    · subst heq
      simp [Items.setNextLink, Items.setLink, Items.alloc, hc.ne]
    · simp [Items.setNextLink, Items.setLink, Items.alloc, hc.ne, heq]
  apply h.set
  · refine ⟨hlinked.item, ?_, ?_, ?_, ?_⟩
    · rw [hnext, ← List.cons_append, hlast, List.append_assoc]
      exact (hlast ▸ hlinked.chain).append_cell hnew
    · rw [hitem, Function.update_of_ne (hold r List.mem_cons_self).ne]
      exact hlinked.forward
    · rw [hitem, List.map_append, List.map_singleton, Function.update_self, ← hlinked.slots]
      congr 1
      exact List.map_congr_left fun c hc =>
        Function.update_of_ne (hold c (List.mem_cons_of_mem _ hc)).ne ..
    · rw [hcustom r (hold r List.mem_cons_self)]
      exact hlinked.attrs
  · exact fun _ _ => rfl
  · intro i hi c hc
    have hcl : c ≠ last := fun heq =>
      hi (h.apart hc (by rw [hrecords, hlast, heq]; simp))
    show Function.update (Function.update s.link _ _) _ _ c = s.link c
    rw [Function.update_of_ne hcl, Function.update_of_ne (h.fresh hc).ne]
  · exact fun _ _ _ _ => rfl
  · intro c hc
    rw [← List.cons_append, List.mem_append, List.mem_singleton] at hc
    cases hc with
    | inl hold => exact .inl (hrecords ▸ hold)
    | inr hnew => exact .inr ⟨hnew, Nat.lt_succ_self _⟩
  · exact Nat.le_succ _
  · exact fun a ha => .inl ha

end Pnet.Image
