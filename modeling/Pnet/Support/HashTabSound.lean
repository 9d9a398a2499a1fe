import Mathlib.Algebra.Order.Group.Multiset
import Mathlib.Tactic.Abel
import Pnet.Support.HashTab

/-! The hash table as a multiset, over any sequence of additions and removals. -/
namespace Pnet.Support
open Pnet.Lib

variable {α κ : Type}

namespace ILHashTable

/-- A cell that `ILHashAdd` has given out. -/
def Allocated (t : ILHashTable α) (r : EntryRef) : Prop :=
  ∃ id posn, r = .block id posn ∧ posn < t.size ∧ id < t.overflow.length ∧
    (id + 1 = t.overflow.length → posn < t.overflowPosn)

/-- `chains hash` are the overflow entries of a bucket. -/
structure Inv (computeFunc : α → Nat) (t : ILHashTable α) (chains : Nat → List EntryRef) :
    Prop where
  size_pos : 0 < t.size
  posn_le : t.overflowPosn ≤ t.size
  newest : t.overflowPosn < t.size → t.overflow.headD 0 + 1 = t.overflow.length
  chain : ∀ hash < t.size, Chain t.next (some (.table hash)) (.table hash :: chains hash)
  allocated : ∀ hash < t.size, ∀ r ∈ chains hash, t.Allocated r
  apart : ∀ hash < t.size, ∀ hash' < t.size, ∀ r ∈ chains hash, r ∈ chains hash' → hash = hash'
  homed : ∀ hash < t.size, ∀ r ∈ EntryRef.table hash :: chains hash, ∀ elem,
    (t.entry r).elem = some elem → t.bucket (computeFunc elem) = hash

def elemsOf (t : ILHashTable α) (cells : List EntryRef) : List α :=
  cells.filterMap fun r => (t.entry r).elem

/-- What a bucket holds, read off its chain. -/
def chainElems (t : ILHashTable α) : Nat → Option EntryRef → List α
  | _, none => []
  | 0, some _ => []
  | fuel + 1, some r => (t.entry r).elem.toList ++ chainElems t fuel (t.next r)

def bucketElems (t : ILHashTable α) (hash : Nat) : List α :=
  t.chainElems t.numEntries (some (.table hash))

def elems (t : ILHashTable α) : List α := (List.range t.size).flatMap t.bucketElems

/-- The content of the table. -/
def contents (t : ILHashTable α) : Multiset α := t.elems

variable {computeFunc : α → Nat} {t t' : ILHashTable α} {chains chains' : Nat → List EntryRef}
  {hash : Nat}

/-! ### Chains and what they hold -/

theorem chainElems_eq {start : Option EntryRef} {cells : List EntryRef}
    (h : Chain t.next start cells) {fuel : Nat} (hfuel : cells.length ≤ fuel) :
    t.chainElems fuel start = t.elemsOf cells := by
  induction h generalizing fuel with
  | nil => cases fuel <;> rfl
  | @cons r cells _ ih =>
    cases fuel with
    | zero => cases hfuel
    | succ fuel =>
      unfold chainElems elemsOf
      rw [ih (Nat.le_of_succ_le_succ hfuel), List.filterMap_cons]
      cases (t.entry r).elem <;> rfl

theorem not_allocated_table : ¬ t.Allocated (.table hash) := by
  intro h
  obtain ⟨_, _, heq, _⟩ := h
  cases heq

theorem Inv.length_le (h : t.Inv computeFunc chains) (hhash : hash < t.size) :
    (EntryRef.table hash :: chains hash).length ≤ t.numEntries := by
  have hnodup := (List.nodup_cons.1 (h.chain hash hhash).nodup).2
  let pool := (List.range t.overflow.length).flatMap fun id =>
    (List.range t.size).map (EntryRef.block id)
  have hpool : pool.length = t.size * t.overflow.length := by
    simp [pool, List.length_flatMap, Nat.mul_comm]
  have hmem : ∀ r ∈ chains hash, r ∈ pool := by
    intro r hr
    obtain ⟨id, posn, rfl, hposn, hid, _⟩ := h.allocated hash hhash r hr
    exact List.mem_flatMap.2 ⟨id, List.mem_range.2 hid, List.mem_map.2
      ⟨posn, List.mem_range.2 hposn, rfl⟩⟩
  have hle := length_le_of_mem hnodup hmem
  rw [List.length_cons, numEntries, ← hpool]
  exact Nat.succ_le_succ hle

theorem Inv.bucketElems (h : t.Inv computeFunc chains) (hhash : hash < t.size) :
    t.bucketElems hash = t.elemsOf (.table hash :: chains hash) :=
  chainElems_eq (h.chain hash hhash) (h.length_le hhash)

theorem Inv.seekElem (h : t.Inv computeFunc chains) (hhash : hash < t.size) (test : α → Bool) :
    t.seekElem test (some (.table hash)) =
      some ((EntryRef.table hash :: chains hash).find? fun r => (t.entry r).elem.any test) :=
  (h.chain hash hhash).seek _ (h.length_le hhash)

/-- A cell is in the chain of one bucket only. -/
theorem Inv.not_mem (h : t.Inv computeFunc chains) (hhash : hash < t.size) {hash' : Nat}
    (hhash' : hash' < t.size) (hne : hash' ≠ hash) {r : EntryRef}
    (hr : r ∈ EntryRef.table hash :: chains hash) : r ∉ EntryRef.table hash' :: chains hash' := by
  intro hr'
  cases List.mem_cons.1 hr with
  | inl htable =>
    cases List.mem_cons.1 hr' with
    | inl htable' => exact hne (EntryRef.table.inj (htable'.symm.trans htable))
    | inr hchain' => exact not_allocated_table (htable ▸ h.allocated hash' hhash' r hchain')
  | inr hchain =>
    cases List.mem_cons.1 hr' with
    | inl htable' => exact not_allocated_table (htable' ▸ h.allocated hash hhash r hchain)
    | inr hchain' => exact hne (h.apart hash' hhash' hash hhash r hchain' hchain)

theorem elemsOf_congr {cells : List EntryRef}
    (h : ∀ r ∈ cells, (t'.entry r).elem = (t.entry r).elem) : t'.elemsOf cells = t.elemsOf cells :=
  List.filterMap_congr h

/-- Only one bucket has changed. -/
theorem contents_of_bucket (hsize : t'.size = t.size) (hhash : hash < t.size)
    (hother : ∀ hash' < t.size, hash' ≠ hash → t'.bucketElems hash' = t.bucketElems hash') :
    t'.contents + t.bucketElems hash = t.contents + t'.bucketElems hash := by
  obtain ⟨pre, post, hsplit⟩ := List.append_of_mem (List.mem_range.2 hhash)
  have hnodup := hsplit ▸ (List.nodup_range (n := t.size))
  have hne : ∀ hash' ∈ pre ++ post, hash' ≠ hash := by
    intro hash' hmem heq
    exact (List.nodup_cons.1 (List.nodup_middle.1 hnodup)).1 (heq ▸ hmem)
  have hsame : ∀ hash' ∈ pre ++ post, t'.bucketElems hash' = t.bucketElems hash' := by
    intro hash' hmem
    refine hother hash' ?_ (hne hash' hmem)
    rw [← List.mem_range, hsplit]
    simp only [List.mem_append, List.mem_cons] at hmem ⊢
    exact hmem.imp_right Or.inr
  have hpre : pre.flatMap t'.bucketElems = pre.flatMap t.bucketElems :=
    List.flatMap_congr fun hash' hmem => hsame hash' (List.mem_append_left _ hmem)
  have hpost : post.flatMap t'.bucketElems = post.flatMap t.bucketElems :=
    List.flatMap_congr fun hash' hmem => hsame hash' (List.mem_append_right _ hmem)
  unfold contents elems
  rw [hsize, hsplit]
  simp only [List.flatMap_append, List.flatMap_cons, hpre, hpost, ← Multiset.coe_add]
  abel

/-! ### Changing an element -/

theorem next_setElem (r : EntryRef) (elem : Option α) : (t.setElem r elem).next = t.next := by
  funext r'
  unfold next setElem setEntry
  by_cases hr : r' = r
  · rw [hr]
    simp only [Function.update_self]
  · simp only [Function.update_of_ne hr]

theorem elem_setElem (r : EntryRef) (elem : Option α) :
    ((t.setElem r elem).entry r).elem = elem := by
  unfold setElem setEntry
  simp only [Function.update_self]

theorem elem_setElem_of_ne {r r' : EntryRef} (h : r' ≠ r) (elem : Option α) :
    ((t.setElem r elem).entry r').elem = (t.entry r').elem := by
  unfold setElem setEntry
  simp only [Function.update_of_ne h]

/-- The invariant looks at the elements only to see where they belong. -/
theorem Inv.of_elems (h : t.Inv computeFunc chains) (hsize : t'.size = t.size)
    (hoverflow : t'.overflow = t.overflow) (hposn : t'.overflowPosn = t.overflowPosn)
    (hnext : t'.next = t.next)
    (hhomed : ∀ hash < t.size, ∀ r ∈ EntryRef.table hash :: chains hash, ∀ elem,
      (t'.entry r).elem = some elem → t.bucket (computeFunc elem) = hash) :
    t'.Inv computeFunc chains := by
  constructor
  · rw [hsize]
    exact h.size_pos
  · rw [hsize, hposn]
    exact h.posn_le
  · rw [hsize, hposn, hoverflow]
    exact h.newest
  · rw [hsize, hnext]
    exact h.chain
  · rw [hsize]
    intro hash hhash r hr
    unfold Allocated
    rw [hsize, hoverflow, hposn]
    exact h.allocated hash hhash r hr
  · rw [hsize]
    exact h.apart
  · rw [hsize]
    intro hash hhash r hr elem helem
    unfold bucket
    rw [hsize]
    exact hhomed hash hhash r hr elem helem

theorem Inv.setElem (h : t.Inv computeFunc chains) (hhash : hash < t.size) {r : EntryRef}
    (hr : r ∈ EntryRef.table hash :: chains hash) {elem : Option α}
    (helem : ∀ e, elem = some e → t.bucket (computeFunc e) = hash) :
    (t.setElem r elem).Inv computeFunc chains := by
  refine h.of_elems rfl rfl rfl (next_setElem r elem) fun hash' hhash' r' hr' e he => ?_
  by_cases heq : r' = r
  · subst heq
    rw [elem_setElem] at he
    by_cases hsame : hash' = hash
    · rw [hsame]
      exact helem e he
    · exact absurd hr' (h.not_mem hhash hhash' hsame hr)
  · rw [elem_setElem_of_ne heq] at he
    exact h.homed hash' hhash' r' hr' e he

theorem elemsOf_append (pre post : List EntryRef) :
    t.elemsOf (pre ++ post) = t.elemsOf pre ++ t.elemsOf post :=
  List.filterMap_append

theorem elemsOf_cons (r : EntryRef) (cells : List EntryRef) :
    t.elemsOf (r :: cells) = (t.entry r).elem.toList ++ t.elemsOf cells := by
  unfold elemsOf
  rw [List.filterMap_cons]
  cases (t.entry r).elem <;> rfl

theorem Inv.contents_setElem (h : t.Inv computeFunc chains) (hhash : hash < t.size)
    {r : EntryRef} (hr : r ∈ EntryRef.table hash :: chains hash) {elem : Option α}
    (helem : ∀ e, elem = some e → t.bucket (computeFunc e) = hash) :
    (t.setElem r elem).contents + (t.entry r).elem.toList = t.contents + elem.toList := by
  have h' := h.setElem hhash hr helem
  have hsum : (t.setElem r elem).contents + t.bucketElems hash =
      t.contents + (t.setElem r elem).bucketElems hash := by
    refine contents_of_bucket rfl hhash fun hash' hhash' hne => ?_
    rw [h.bucketElems hhash', h'.bucketElems hhash']
    refine elemsOf_congr fun r' hr' => elem_setElem_of_ne (fun heq => ?_) elem
    exact h.not_mem hhash hhash' hne hr (heq ▸ hr')
  obtain ⟨pre, post, hsplit⟩ := List.append_of_mem hr
  have hnodup := hsplit ▸ (h.chain hash hhash).nodup
  have hapart : ∀ r' ∈ pre ++ post, ((t.setElem r elem).entry r').elem = (t.entry r').elem := by
    intro r' hr'
    refine elem_setElem_of_ne (fun heq => ?_) elem
    exact (List.nodup_cons.1 (List.nodup_middle.1 hnodup)).1 (heq ▸ hr')
  have hpre := elemsOf_congr fun r' hr' => hapart r' (List.mem_append_left _ hr')
  have hpost := elemsOf_congr fun r' hr' => hapart r' (List.mem_append_right _ hr')
  rw [h.bucketElems hhash, h'.bucketElems hhash, hsplit] at hsum
  simp only [elemsOf_append, elemsOf_cons, elem_setElem, hpre, hpost, ← Multiset.coe_add] at hsum
  have hcancel : (t.setElem r elem).contents + (t.entry r).elem.toList +
      ((t.elemsOf pre : Multiset α) + t.elemsOf post) =
      t.contents + elem.toList + ((t.elemsOf pre : Multiset α) + t.elemsOf post) := by
    calc (t.setElem r elem).contents + (t.entry r).elem.toList +
          ((t.elemsOf pre : Multiset α) + t.elemsOf post)
        = (t.setElem r elem).contents +
            (t.elemsOf pre + ((t.entry r).elem.toList + t.elemsOf post)) := by abel
      _ = t.contents + (t.elemsOf pre + (elem.toList + t.elemsOf post)) := hsum
      _ = _ := by abel
  exact add_right_cancel hcancel

/-! ### Adding -/

/-- A new entry goes in after the first one of its bucket. -/
def link (t : ILHashTable α) (hash : Nat) (r : EntryRef) (elem : α) : ILHashTable α :=
  (t.setEntry r ⟨some elem, t.next (.table hash)⟩).setEntry (.table hash)
    { t.entry (.table hash) with overflow := some r }

theorem entry_link_table (r : EntryRef) (elem : α) :
    (t.link hash r elem).entry (.table hash) =
      { t.entry (.table hash) with overflow := some r } :=
  Function.update_self ..

theorem entry_link_new {r : EntryRef} (hr : r ≠ .table hash) (elem : α) :
    (t.link hash r elem).entry r = ⟨some elem, t.next (.table hash)⟩ :=
  (Function.update_of_ne hr ..).trans (Function.update_self ..)

theorem entry_link_of_ne {r r' : EntryRef} (hr' : r' ≠ .table hash) (hne : r' ≠ r) (elem : α) :
    (t.link hash r elem).entry r' = t.entry r' :=
  (Function.update_of_ne hr' ..).trans (Function.update_of_ne hne ..)

/-- Room is made for one more entry, at `r`. -/
structure Grown (t t' : ILHashTable α) (r : EntryRef) : Prop where
  size : t'.size = t.size
  entry : t'.entry = t.entry
  posn_le : t'.overflowPosn ≤ t'.size
  newest : t'.overflowPosn < t'.size → t'.overflow.headD 0 + 1 = t'.overflow.length
  fresh : ¬ t.Allocated r
  allocated : t'.Allocated r
  keeps : ∀ r', t.Allocated r' → t'.Allocated r'

theorem Grown.sameBlock (h : t.Inv computeFunc chains) (hposn : t.overflowPosn < t.size) :
    t.Grown { t with overflowPosn := t.overflowPosn + 1 }
      (.block (t.overflow.headD 0) t.overflowPosn) := by
  have hnewest := h.newest hposn
  constructor
  · rfl
  · rfl
  · exact hposn
  · intro _
    exact hnewest
  · intro hallocated
    obtain ⟨id, posn, heq, _, _, hlt⟩ := hallocated
    cases heq
    exact Nat.lt_irrefl _ (hlt hnewest)
  · exact ⟨_, _, rfl, hposn, hnewest ▸ Nat.lt_succ_self _, fun _ => Nat.lt_succ_self _⟩
  · intro r' hr'
    obtain ⟨id, posn, heq, hsize, hid, hlt⟩ := hr'
    exact ⟨id, posn, heq, hsize, hid, fun hlast => Nat.lt_succ_of_lt (hlt hlast)⟩

theorem Grown.newBlock (h : t.Inv computeFunc chains) (hposn : ¬ t.overflowPosn < t.size) :
    t.Grown { t with overflow := t.overflow.length :: t.overflow, overflowPosn := 1 }
      (.block t.overflow.length 0) := by
  constructor
  · rfl
  · rfl
  · exact h.size_pos
  · intro _
    rfl
  · intro hallocated
    obtain ⟨id, posn, heq, _, hid, _⟩ := hallocated
    cases heq
    exact Nat.lt_irrefl _ hid
  · exact ⟨_, _, rfl, h.size_pos, Nat.lt_succ_self _, fun _ => Nat.one_pos⟩
  · intro r' hr'
    obtain ⟨id, posn, heq, hsize, hid, _⟩ := hr'
    refine ⟨id, posn, heq, hsize, Nat.lt_succ_of_lt hid, fun hlast => ?_⟩
    exact absurd (Nat.succ.inj hlast) (Nat.ne_of_lt hid)

section
variable (h : t.Inv computeFunc chains) (hhash : hash < t.size) {r : EntryRef}
  (hgrown : t.Grown t' r) (elem : α)
include h hhash hgrown

/-- The cells that the new entry is apart from. -/
theorem Inv.ne_of_grown {hash' : Nat} (hhash' : hash' < t.size) :
    r ∉ EntryRef.table hash' :: chains hash' := by
  intro hmem
  cases List.mem_cons.1 hmem with
  | inl htable => exact not_allocated_table (htable ▸ hgrown.allocated)
  | inr hchain => exact hgrown.fresh (h.allocated hash' hhash' r hchain)

theorem Inv.chain_link :
    Chain (t'.link hash r elem).next (some (.table hash)) (.table hash :: r :: chains hash) := by
  have hr : r ≠ .table hash := fun heq => h.ne_of_grown hhash hgrown hhash (heq ▸ List.mem_cons_self ..)
  have hold := (h.chain hash hhash).of_cons.2
  have hnodup := List.nodup_cons.1 (h.chain hash hhash).nodup
  apply Chain.cons
  have htable : (t'.link hash r elem).next (.table hash) = some r :=
    congrArg ILHashEntry.overflow (entry_link_table r elem)
  have hnew : (t'.link hash r elem).next r = t.next (.table hash) := by
    unfold next
    rw [entry_link_new hr, next, hgrown.entry]
  rw [htable]
  apply Chain.cons
  rw [hnew]
  refine hold.congr fun r' hr' => ?_
  have hne : r' ≠ r := fun heq =>
    h.ne_of_grown hhash hgrown hhash (heq ▸ List.mem_cons_of_mem _ hr')
  have hne' : r' ≠ .table hash := fun heq => hnodup.1 (heq ▸ hr')
  unfold next
  rw [entry_link_of_ne hne' hne, hgrown.entry]

/-- The other buckets are as they were. -/
theorem Inv.entry_link_other {hash' : Nat} (hhash' : hash' < t.size) (hne : hash' ≠ hash)
    {r' : EntryRef} (hr' : r' ∈ EntryRef.table hash' :: chains hash') :
    (t'.link hash r elem).entry r' = t.entry r' := by
  have hne' : r' ≠ .table hash := fun heq =>
    h.not_mem hhash' hhash (Ne.symm hne) hr' (heq ▸ List.mem_cons_self ..)
  have hnew : r' ≠ r := fun heq => h.ne_of_grown hhash hgrown hhash' (heq ▸ hr')
  rw [entry_link_of_ne hne' hnew, hgrown.entry]

theorem Inv.elem_link_own {r' : EntryRef} (hr' : r' ∈ EntryRef.table hash :: chains hash) :
    ((t'.link hash r elem).entry r').elem = (t.entry r').elem := by
  by_cases htable : r' = .table hash
  · rw [htable, entry_link_table, hgrown.entry]
  · have hnew : r' ≠ r := fun heq => h.ne_of_grown hhash hgrown hhash (heq ▸ hr')
    rw [entry_link_of_ne htable hnew, hgrown.entry]

theorem Inv.link (hhome : t.bucket (computeFunc elem) = hash) :
    (t'.link hash r elem).Inv computeFunc (Function.update chains hash (r :: chains hash)) := by
  have hr : r ≠ .table hash := fun heq => h.ne_of_grown hhash hgrown hhash (heq ▸ List.mem_cons_self ..)
  have hsize : (t'.link hash r elem).size = t.size := hgrown.size
  have hallocated : (t'.link hash r elem).Allocated = t'.Allocated := rfl
  constructor
  · rw [hsize]
    exact h.size_pos
  · exact hgrown.posn_le
  · exact hgrown.newest
  · rw [hsize]
    intro hash' hhash'
    by_cases heq : hash' = hash
    · rw [heq, Function.update_self]
      exact h.chain_link hhash hgrown elem
    · rw [Function.update_of_ne heq]
      refine (h.chain hash' hhash').congr fun r' hr' => ?_
      unfold next
      rw [h.entry_link_other hhash hgrown elem hhash' heq hr']
  · rw [hsize, hallocated]
    intro hash' hhash' r' hr'
    by_cases heq : hash' = hash
    · rw [heq, Function.update_self] at hr'
      cases List.mem_cons.1 hr' with
      | inl hnew =>
        rw [hnew]
        exact hgrown.allocated
      | inr hold => exact hgrown.keeps r' (h.allocated hash hhash r' hold)
    · rw [Function.update_of_ne heq] at hr'
      exact hgrown.keeps r' (h.allocated hash' hhash' r' hr')
  · rw [hsize]
    intro h₁ hh₁ h₂ hh₂ r' hr₁ hr₂
    have hcell : ∀ hash' < t.size, r' ∈ Function.update chains hash (r :: chains hash) hash' →
        (r' = r ∧ hash' = hash) ∨ r' ∈ chains hash' := by
      intro hash' _ hr'
      by_cases heq : hash' = hash
      · rw [heq, Function.update_self] at hr'
        cases List.mem_cons.1 hr' with
        | inl hnew => exact .inl ⟨hnew, heq⟩
        | inr hold => exact .inr (heq ▸ hold)
      · rw [Function.update_of_ne heq] at hr'
        exact .inr hr'
    cases hcell h₁ hh₁ hr₁ with
    | inl hnew₁ =>
      cases hcell h₂ hh₂ hr₂ with
      | inl hnew₂ => exact hnew₁.2.trans hnew₂.2.symm
      | inr hold₂ =>
        exact absurd (List.mem_cons_of_mem _ (hnew₁.1 ▸ hold₂)) (h.ne_of_grown hhash hgrown hh₂)
    | inr hold₁ =>
      cases hcell h₂ hh₂ hr₂ with
      | inl hnew₂ =>
        exact absurd (List.mem_cons_of_mem _ (hnew₂.1 ▸ hold₁)) (h.ne_of_grown hhash hgrown hh₁)
      | inr hold₂ => exact h.apart h₁ hh₁ h₂ hh₂ r' hold₁ hold₂
  · rw [hsize]
    intro hash' hhash' r' hr' e he
    unfold bucket
    rw [hsize]
    by_cases heq : hash' = hash
    · subst heq
      rw [Function.update_self] at hr'
      by_cases hnew : r' = r
      · rw [hnew, entry_link_new hr] at he
        cases he
        exact hhome
      · have hold : r' ∈ EntryRef.table hash' :: chains hash' := by
          simp only [List.mem_cons, hnew, false_or] at hr' ⊢
          exact hr'
        rw [h.elem_link_own hhash hgrown elem hold] at he
        exact h.homed hash' hhash' r' hold e he
    · rw [Function.update_of_ne heq] at hr'
      rw [h.entry_link_other hhash hgrown elem hhash' heq hr'] at he
      exact h.homed hash' hhash' r' hr' e he

theorem Inv.contents_link (hhome : t.bucket (computeFunc elem) = hash) :
    (t'.link hash r elem).contents = elem ::ₘ t.contents := by
  have hr : r ≠ .table hash := fun heq => h.ne_of_grown hhash hgrown hhash (heq ▸ List.mem_cons_self ..)
  have h' := h.link hhash hgrown elem hhome
  have hsize : (t'.link hash r elem).size = t.size := hgrown.size
  have hsum : (t'.link hash r elem).contents + t.bucketElems hash =
      t.contents + (t'.link hash r elem).bucketElems hash := by
    refine contents_of_bucket hsize hhash fun hash' hhash' hne => ?_
    rw [h.bucketElems hhash', h'.bucketElems (hsize ▸ hhash'), Function.update_of_ne hne]
    refine elemsOf_congr fun r' hr' => ?_
    rw [h.entry_link_other hhash hgrown elem hhash' hne hr']
  have hown : (t'.link hash r elem).elemsOf (chains hash) = t.elemsOf (chains hash) :=
    elemsOf_congr fun r' hr' => h.elem_link_own hhash hgrown elem (List.mem_cons_of_mem _ hr')
  have htable := h.elem_link_own hhash hgrown elem (List.mem_cons_self ..)
  rw [h.bucketElems hhash, h'.bucketElems (hsize ▸ hhash), Function.update_self] at hsum
  simp only [elemsOf_cons, hown, htable, entry_link_new hr, Option.toList_some,
    ← Multiset.coe_add] at hsum
  have hcancel : (t'.link hash r elem).contents +
      (((t.entry (.table hash)).elem.toList : Multiset α) + t.elemsOf (chains hash)) =
      elem ::ₘ t.contents +
        (((t.entry (.table hash)).elem.toList : Multiset α) + t.elemsOf (chains hash)) := by
    rw [hsum, ← Multiset.singleton_add, ← Multiset.coe_singleton]
    abel
  exact add_right_cancel hcancel

end

/-! ### The operations -/

theorem Inv.bucket_lt (h : t.Inv computeFunc chains) (n : Nat) : t.bucket n < t.size :=
  Nat.mod_lt n h.size_pos

theorem inv_create (size : Nat) : (ilHashCreate α size).Inv computeFunc fun _ => [] := by
  have hpos : 0 < (ilHashCreate α size).size := by
    show 0 < if size = 0 then 509 else size
    split <;> omega
  constructor
  · exact hpos
  · exact Nat.le_refl _
  · intro hlt
    exact absurd hlt (Nat.lt_irrefl _)
  · intro hash _
    exact .cons .nil
  · exact fun _ _ _ hr => absurd hr List.not_mem_nil
  · exact fun _ _ _ _ _ hr => absurd hr List.not_mem_nil
  · intro hash _ r _ elem helem
    cases helem

theorem contents_create (size : Nat) : (ilHashCreate α size).contents = 0 := by
  unfold contents elems
  rw [Multiset.coe_eq_zero, List.flatMap_eq_nil_iff]
  intro hash hhash
  have h : (ilHashCreate α size).Inv (fun _ => 0) fun _ => [] := inv_create size
  rw [h.bucketElems (List.mem_range.1 hhash)]
  rfl

theorem Inv.add (h : t.Inv computeFunc chains) (elem : α) :
    ∃ chains', (ilHashAdd computeFunc t elem).Inv computeFunc chains' ∧
      (ilHashAdd computeFunc t elem).contents = elem ::ₘ t.contents := by
  have hhash := h.bucket_lt (computeFunc elem)
  unfold ilHashAdd
  by_cases hnone : (t.entry (.table (t.bucket (computeFunc elem)))).elem = none
  · have hmem := List.mem_cons_self (a := EntryRef.table (t.bucket (computeFunc elem)))
      (l := chains (t.bucket (computeFunc elem)))
    have hhome : ∀ e, some elem = some e →
        t.bucket (computeFunc e) = t.bucket (computeFunc elem) :=
      fun e he => congrArg (fun e => t.bucket (computeFunc e)) (Option.some.inj he).symm
    have hcontents := h.contents_setElem hhash hmem hhome
    rw [hnone] at hcontents
    rw [if_pos hnone]
    refine ⟨chains, h.setElem hhash hmem hhome, ?_⟩
    rw [← Multiset.singleton_add, add_comm]
    exact (add_zero _).symm.trans hcontents
  · rw [if_neg hnone]
    by_cases hposn : t.overflowPosn < t.size
    · have hgrown := Grown.sameBlock h hposn
      simp only [if_pos hposn]
      exact ⟨_, h.link hhash hgrown elem rfl, h.contents_link hhash hgrown elem rfl⟩
    · have hgrown := Grown.newBlock h hposn
      simp only [if_neg hposn]
      exact ⟨_, h.link hhash hgrown elem rfl, h.contents_link hhash hgrown elem rfl⟩

theorem Inv.mem_contents (h : t.Inv computeFunc chains) {elem : α} :
    elem ∈ t.contents ↔ ∃ hash < t.size, ∃ r ∈ EntryRef.table hash :: chains hash,
      (t.entry r).elem = some elem := by
  unfold contents elems
  rw [Multiset.mem_coe, List.mem_flatMap]
  constructor
  · intro hmem
    obtain ⟨hash, hhash, helem⟩ := hmem
    have hhash := List.mem_range.1 hhash
    rw [h.bucketElems hhash] at helem
    obtain ⟨r, hr, hre⟩ := List.mem_filterMap.1 helem
    exact ⟨hash, hhash, r, hr, hre⟩
  · intro hcell
    obtain ⟨hash, hhash, r, hr, hre⟩ := hcell
    refine ⟨hash, List.mem_range.2 hhash, ?_⟩
    rw [h.bucketElems hhash]
    exact List.mem_filterMap.2 ⟨r, hr, hre⟩

theorem Inv.remove [DecidableEq α] (h : t.Inv computeFunc chains) (elem : α) :
    ∃ t', ilHashRemove computeFunc t elem = some t' ∧ t'.Inv computeFunc chains ∧
      t'.contents = t.contents.erase elem := by
  have hhash := h.bucket_lt (computeFunc elem)
  unfold ilHashRemove
  rw [h.seekElem hhash]
  cases hfind : (EntryRef.table (t.bucket (computeFunc elem)) ::
      chains (t.bucket (computeFunc elem))).find? fun r => (t.entry r).elem.any (· = elem) with
  | none =>
    refine ⟨t, rfl, h, ?_⟩
    rw [Multiset.erase_of_notMem]
    intro hmem
    obtain ⟨hash, hhash', r, hr, hre⟩ := h.mem_contents.1 hmem
    have hhome := h.homed hash hhash' r hr elem hre
    rw [← hhome] at hr
    have htest := List.find?_eq_none.1 hfind r hr
    rw [hre] at htest
    exact htest (decide_eq_true rfl)
  | some r =>
    have hr := List.mem_of_find?_eq_some hfind
    have hre : (t.entry r).elem = some elem := by
      have htest := List.find?_some hfind
      cases helem : (t.entry r).elem with
      | none =>
        rw [helem] at htest
        cases htest
      | some e =>
        rw [helem] at htest
        rw [of_decide_eq_true htest]
    have hgone : ∀ e, none = some e → t.bucket (computeFunc e) = t.bucket (computeFunc elem) :=
      fun e he => absurd he (Option.some_ne_none e).symm
    have hcontents := h.contents_setElem hhash hr hgone
    refine ⟨_, rfl, h.setElem hhash hr hgone, ?_⟩
    rw [hre] at hcontents
    have hcons : t.contents = elem ::ₘ (t.setElem r none).contents := by
      rw [← Multiset.singleton_add, add_comm]
      exact ((add_zero _).symm.trans hcontents.symm)
    rw [hcons, Multiset.erase_cons_head]

/-- The elements of a kind are gone from some of the cells. -/
structure Cleared (pred : α → Bool) (cleared : EntryRef → Prop) (t t' : ILHashTable α) : Prop where
  size : t'.size = t.size
  overflow : t'.overflow = t.overflow
  overflowPosn : t'.overflowPosn = t.overflowPosn
  next : t'.next = t.next
  elem : ∀ r, cleared r → (t'.entry r).elem = (t.entry r).elem.filter (!pred ·)
  elem_of_not : ∀ r, ¬ cleared r → (t'.entry r).elem = (t.entry r).elem

variable {pred : α → Bool}

theorem Cleared.trans {t₁ t₂ t₃ : ILHashTable α} {P Q : EntryRef → Prop}
    (h : Cleared pred P t₁ t₂) (h' : Cleared pred Q t₂ t₃) :
    Cleared pred (fun r => P r ∨ Q r) t₁ t₃ := by
  refine ⟨h'.size.trans h.size, h'.overflow.trans h.overflow,
    h'.overflowPosn.trans h.overflowPosn, h'.next.trans h.next, ?_, ?_⟩
  · intro r hr
    by_cases hq : Q r
    · rw [h'.elem r hq]
      by_cases hp : P r
      · rw [h.elem r hp, Option.filter_filter]
        simp only [Bool.and_self]
      · rw [h.elem_of_not r hp]
    · rw [h'.elem_of_not r hq, h.elem r (hr.resolve_right hq)]
  · intro r hr
    rw [h'.elem_of_not r fun hq => hr (Or.inr hq), h.elem_of_not r fun hp => hr (Or.inl hp)]

variable (t pred) in
theorem cleared_one (r : EntryRef) :
    Cleared pred (· = r) t (if (t.entry r).elem.any pred then t.setElem r none else t) := by
  split
  · rename_i hany
    refine ⟨rfl, rfl, rfl, next_setElem r none, ?_, fun r' hr' => elem_setElem_of_ne hr' none⟩
    intro r' hr'
    rw [hr', elem_setElem]
    cases helem : (t.entry r).elem with
    | none => rfl
    | some e =>
      rw [helem] at hany
      rw [Option.filter_some, show pred e = true from hany]
      rfl
  · rename_i hany
    refine ⟨rfl, rfl, rfl, rfl, ?_, fun _ _ => rfl⟩
    intro r' hr'
    rw [hr']
    cases helem : (t.entry r).elem with
    | none => rfl
    | some e =>
      rw [helem] at hany
      rw [Option.filter_some, show pred e = false from Bool.eq_false_of_not_eq_true hany]
      rfl

variable (pred) in
theorem clearChain_cleared {next : EntryRef → Option EntryRef} {start : Option EntryRef}
    {cells : List EntryRef} (h : Chain next start cells) (hnext : t.next = next) {fuel : Nat}
    (hfuel : cells.length ≤ fuel) :
    ∃ t', clearChain pred fuel start t = some t' ∧ Cleared pred (· ∈ cells) t t' := by
  induction h generalizing t fuel with
  | nil =>
    refine ⟨t, by cases fuel <;> rfl, rfl, rfl, rfl, rfl, ?_, fun _ _ => rfl⟩
    exact fun r hr => absurd hr List.not_mem_nil
  | @cons r cells _ ih =>
    cases fuel with
    | zero => cases hfuel
    | succ fuel =>
      have hone := cleared_one t pred r
      obtain ⟨t', hrun, hrest⟩ := ih (hone.next.trans hnext) (Nat.le_of_succ_le_succ hfuel)
      have hboth := hone.trans hrest
      refine ⟨t', ?_, hboth.size, hboth.overflow, hboth.overflowPosn, hboth.next, ?_, ?_⟩
      · unfold clearChain
        rw [← hnext] at hrun
        rw [← hrun, ← hone.next]
      · exact fun r' hr' => hboth.elem r' (List.mem_cons.1 hr')
      · exact fun r' hr' => hboth.elem_of_not r' fun hor => hr' (List.mem_cons.2 hor)

theorem Cleared.inv {cleared : EntryRef → Prop} (hcleared : Cleared pred cleared t t')
    (h : t.Inv computeFunc chains) : t'.Inv computeFunc chains := by
  refine h.of_elems hcleared.size hcleared.overflow hcleared.overflowPosn hcleared.next ?_
  intro hash hhash r hr elem helem
  by_cases hc : cleared r
  · rw [hcleared.elem r hc] at helem
    exact h.homed hash hhash r hr elem (Option.filter_eq_some_iff.1 helem).1
  · rw [hcleared.elem_of_not r hc] at helem
    exact h.homed hash hhash r hr elem helem

variable (pred) in
/-- The loop over the buckets clears the chains it comes to. -/
theorem Inv.clearBuckets (h : t.Inv computeFunc chains) {count hash : Nat}
    (hle : hash + count ≤ t.size) :
    ∃ t', Support.clearBuckets pred count hash t = some t' ∧
      Cleared pred (fun r => ∃ hash', hash ≤ hash' ∧ hash' < hash + count ∧
        r ∈ EntryRef.table hash' :: chains hash') t t' := by
  induction count generalizing hash t with
  | zero =>
    refine ⟨t, rfl, rfl, rfl, rfl, rfl, ?_, fun _ _ => rfl⟩
    intro r hr
    obtain ⟨hash', hge, hlt, _⟩ := hr
    omega
  | succ count ih =>
    have hhash : hash < t.size := by omega
    obtain ⟨t₁, hrun₁, hcleared₁⟩ :=
      clearChain_cleared pred (h.chain hash hhash) rfl (h.length_le hhash)
    have hle₁ : hash + 1 + count ≤ t₁.size := by
      rw [hcleared₁.size]
      omega
    obtain ⟨t₂, hrun₂, hcleared₂⟩ := ih (hcleared₁.inv h) hle₁
    have hboth := hcleared₁.trans hcleared₂
    have hiff : ∀ r, (∃ hash', hash ≤ hash' ∧ hash' < hash + (count + 1) ∧
        r ∈ EntryRef.table hash' :: chains hash') ↔
        r ∈ EntryRef.table hash :: chains hash ∨ ∃ hash', hash + 1 ≤ hash' ∧
          hash' < hash + 1 + count ∧ r ∈ EntryRef.table hash' :: chains hash' := by
      intro r
      constructor
      · intro hr
        obtain ⟨hash', hge, hlt, hmem⟩ := hr
        by_cases heq : hash' = hash
        · exact Or.inl (heq ▸ hmem)
        · exact Or.inr ⟨hash', by omega, by omega, hmem⟩
      · intro hr
        cases hr with
        | inl hmem => exact ⟨hash, Nat.le_refl _, by omega, hmem⟩
        | inr hrest =>
          obtain ⟨hash', hge, hlt, hmem⟩ := hrest
          exact ⟨hash', by omega, by omega, hmem⟩
    refine ⟨t₂, ?_, hboth.size, hboth.overflow, hboth.overflowPosn, hboth.next, ?_, ?_⟩
    · unfold Support.clearBuckets
      rw [hrun₁]
      exact hrun₂
    · exact fun r hr => hboth.elem r ((hiff r).1 hr)
    · exact fun r hr => hboth.elem_of_not r fun hor => hr ((hiff r).2 hor)

theorem Inv.removeSubset (h : t.Inv computeFunc chains) (matchFunc : α → κ → Bool) (key : κ) :
    ∃ t', ilHashRemoveSubset t matchFunc key = some t' ∧ t'.Inv computeFunc chains ∧
      t'.contents = t.contents.filter fun elem => ¬ matchFunc elem key = true := by
  obtain ⟨t', hrun, hcleared⟩ :=
    h.clearBuckets (matchFunc · key) (Nat.le_of_eq (Nat.zero_add t.size))
  have h' := hcleared.inv h
  refine ⟨t', hrun, h', ?_⟩
  have hbucket : ∀ hash ∈ List.range t.size,
      t'.bucketElems hash = (t.bucketElems hash).filter (!matchFunc · key) := by
    intro hash hmem
    have hhash := List.mem_range.1 hmem
    rw [h.bucketElems hhash, h'.bucketElems (hcleared.size ▸ hhash)]
    unfold elemsOf
    rw [List.filter_filterMap]
    refine List.filterMap_congr fun r hr => hcleared.elem r ?_
    exact ⟨hash, Nat.zero_le _, by omega, hr⟩
  unfold contents elems
  rw [hcleared.size, Multiset.filter_coe, List.filter_flatMap]
  congr 1
  refine List.flatMap_congr fun hash hmem => ?_
  rw [hbucket hash hmem]
  congr 1
  funext elem
  simp

/-- Only the hash values of what is in the table count. -/
theorem Inv.congr (h : t.Inv computeFunc chains) {computeFunc' : α → Nat}
    (hsame : ∀ elem ∈ t.contents, computeFunc' elem = computeFunc elem) :
    t.Inv computeFunc' chains := by
  refine { h with homed := ?_ }
  intro hash hhash r hr elem helem
  rw [hsame elem (h.mem_contents.2 ⟨hash, hhash, r, hr, helem⟩)]
  exact h.homed hash hhash r hr elem helem

/-- A search finds a matching element if there is one, given that the key and the elements that
match it have one hash value. -/
theorem Inv.find (h : t.Inv computeFunc chains) (key : κ) (keyComputeFunc : κ → Nat)
    (matchFunc : α → κ → Bool)
    (hhashes : ∀ elem ∈ t.contents, matchFunc elem key = true →
      computeFunc elem = keyComputeFunc key) :
    ∃ found, ilHashFindAlt t key keyComputeFunc matchFunc = some found ∧
      (∀ elem, found = some elem → elem ∈ t.contents ∧ matchFunc elem key = true) ∧
      (found = none → ∀ elem ∈ t.contents, ¬ matchFunc elem key = true) := by
  have hhash := h.bucket_lt (keyComputeFunc key)
  unfold ilHashFindAlt
  rw [h.seekElem hhash]
  cases hfind : (EntryRef.table (t.bucket (keyComputeFunc key)) ::
      chains (t.bucket (keyComputeFunc key))).find? fun r =>
        (t.entry r).elem.any (matchFunc · key) with
  | none =>
    refine ⟨none, rfl, fun elem helem => absurd helem.symm (Option.some_ne_none elem), ?_⟩
    intro _ elem hmem hmatch
    obtain ⟨hash, hhash', r, hr, hre⟩ := h.mem_contents.1 hmem
    have hhome := h.homed hash hhash' r hr elem hre
    rw [← hhome, hhashes elem hmem hmatch] at hr
    have htest := List.find?_eq_none.1 hfind r hr
    rw [hre] at htest
    exact htest hmatch
  | some r =>
    have hr := List.mem_of_find?_eq_some hfind
    have htest := List.find?_some hfind
    cases helem : (t.entry r).elem with
    | none =>
      rw [helem] at htest
      cases htest
    | some e =>
      rw [helem] at htest
      refine ⟨some e, congrArg some helem, ?_, fun hnone => absurd hnone (Option.some_ne_none e)⟩
      intro elem heq
      cases heq
      exact ⟨h.mem_contents.2 ⟨_, hhash, r, hr, helem⟩, htest⟩

end ILHashTable

end Pnet.Support
