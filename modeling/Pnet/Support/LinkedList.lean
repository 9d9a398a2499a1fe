import Pnet.Support.ArrayList

/-! The singly linked list against the sequence, and runs of both lists. -/
namespace Pnet.Support
open Pnet.Lib

variable {σ : Type}

namespace ILSinglyLinkedList

/-- `entries` are the entries of the list, in order. -/
structure Inv (list : ILSinglyLinkedList) (entries : List Nat) : Prop where
  chain : Chain list.next list.first entries
  last : list.last = entries.getLast?
  count : list.count = entries.length
  fresh : ∀ r ∈ entries, r < list.fresh
  le : entries.length ≤ 2147483647

/-- The list is a sequence: its count, and the element at every index. -/
def Is (list : ILSinglyLinkedList) (elems : List Ptr) : Prop :=
  list.count = elems.length ∧
    ∃ entries, Chain list.next list.first entries ∧ entries.map list.data = elems

variable {list : ILSinglyLinkedList} {entries pre post : List Nat} {r : Nat}

theorem Inv.is (h : list.Inv entries) : list.Is (entries.map list.data) :=
  ⟨by rw [List.length_map, h.count], entries, h.chain, rfl⟩

theorem inv_create : ilSinglyLinkedListCreate.Inv [] :=
  ⟨.nil, rfl, rfl, fun _ hr => absurd hr List.not_mem_nil, Nat.zero_le _⟩

theorem Inv.length_le (h : list.Inv entries) : entries.length ≤ list.fresh := by
  have hle := length_le_of_mem h.chain.nodup fun r hr => List.mem_range.2 (h.fresh r hr)
  rwa [List.length_range] at hle

theorem next_setNext (r : Nat) (next : Option Nat) :
    (list.setNext r next).next = Function.update list.next r next := by
  funext r'
  unfold ILSinglyLinkedList.next setNext
  by_cases hr : r' = r
  · rw [hr]
    simp only [Function.update_self]
  · simp only [Function.update_of_ne hr]

theorem data_setNext (r : Nat) (next : Option Nat) : (list.setNext r next).data = list.data := by
  funext r'
  unfold data setNext
  by_cases hr : r' = r
  · rw [hr]
    simp only [Function.update_self]
  · simp only [Function.update_of_ne hr]

theorem next_setData (r : Nat) (data : Ptr) : (list.setData r data).next = list.next := by
  funext r'
  unfold ILSinglyLinkedList.next setData
  by_cases hr : r' = r
  · rw [hr]
    simp only [Function.update_self]
  · simp only [Function.update_of_ne hr]

theorem data_setData (r : Nat) (data : Ptr) :
    (list.setData r data).data = Function.update list.data r data := by
  funext r'
  unfold ILSinglyLinkedList.data setData
  by_cases hr : r' = r
  · rw [hr]
    simp only [Function.update_self]
  · simp only [Function.update_of_ne hr]

/-! ### Setting an element -/

theorem Inv.setData (h : list.Inv entries) (r : Nat) (data : Ptr) :
    (list.setData r data).Inv entries := by
  refine ⟨?_, h.last, h.count, h.fresh, h.le⟩
  rw [next_setData]
  exact h.chain

variable (list) in
theorem map_data_setData_of_notMem (hr : r ∉ entries) (data : Ptr) :
    entries.map (list.setData r data).data = entries.map list.data := by
  rw [data_setData]
  exact List.map_congr_left fun r' hr' =>
    Function.update_of_ne (fun heq : r' = r => hr (heq ▸ hr')) ..

theorem map_data_setData (list : ILSinglyLinkedList) (hnodup : (pre ++ r :: post).Nodup)
    (data : Ptr) :
    (pre ++ r :: post).map (list.setData r data).data =
      pre.map list.data ++ data :: post.map list.data := by
  have hnot := (List.nodup_cons.1 (List.nodup_middle.1 hnodup)).1
  have hpre : r ∉ pre := fun hmem => hnot (List.mem_append_left _ hmem)
  have hpost : r ∉ post := fun hmem => hnot (List.mem_append_right _ hmem)
  rw [List.map_append, List.map_cons, map_data_setData_of_notMem list hpre,
    map_data_setData_of_notMem list hpost, data_setData, Function.update_self]

/-! ### Appending -/

theorem next_alloc (data : Ptr) :
    (list.alloc data).next = Function.update list.next list.fresh none := by
  funext r
  unfold ILSinglyLinkedList.next alloc
  by_cases hr : r = list.fresh
  · rw [hr]
    simp only [Function.update_self]
  · simp only [Function.update_of_ne hr]

theorem data_alloc (data : Ptr) :
    (list.alloc data).data = Function.update list.data list.fresh data := by
  funext r
  unfold ILSinglyLinkedList.data alloc
  by_cases hr : r = list.fresh
  · rw [hr]
    simp only [Function.update_self]
  · simp only [Function.update_of_ne hr]

theorem data_addLast (r : Nat) : (list.addLast r).data = list.data := by
  unfold addLast
  cases list.last with
  | none => rfl
  | some last => exact data_setNext ..

/-- The new entry comes after the last one, if there is one. -/
theorem Inv.chain_addLast (h : list.Inv entries) (data : Ptr) :
    Chain ((list.alloc data).addLast list.fresh).next ((list.alloc data).addLast list.fresh).first
        (entries ++ [list.fresh]) ∧
      ((list.alloc data).addLast list.fresh).last = some list.fresh := by
  have hnew : list.fresh ∉ entries := fun hmem => Nat.lt_irrefl _ (h.fresh _ hmem)
  unfold addLast
  cases hlast : (list.alloc data).last with
  | none =>
    have hempty : entries = [] := List.getLast?_eq_none_iff.1 (h.last.symm.trans hlast)
    subst hempty
    refine ⟨Chain.cons ?_, rfl⟩
    have hend : (list.alloc data).next list.fresh = none := by
      rw [next_alloc, Function.update_self]
    exact (congrArg (Chain _ · []) hend).mpr .nil
  | some last =>
    obtain ⟨init, rfl⟩ := List.getLast?_eq_some_iff.1 (h.last.symm.trans hlast)
    have hchain := h.chain.append_cell hnew
    rw [← next_alloc data, ← next_setNext] at hchain
    rw [List.append_assoc]
    exact ⟨hchain, rfl⟩

theorem Inv.append (h : list.Inv entries) (hroom : entries.length < 2147483647) (data : Ptr) :
    ∃ list' entries', ilSinglyLinkedListAppend list data = some (list', (entries.length : Int)) ∧
      list'.Inv entries' ∧ entries'.map list'.data = entries.map list.data ++ [data] := by
  have hcount : ¬ list.count = 2147483647 := by
    rw [h.count]
    omega
  obtain ⟨hchain, hlast⟩ := h.chain_addLast data
  have hfresh : ((list.alloc data).addLast list.fresh).fresh = list.fresh + 1 := by
    unfold addLast
    cases (list.alloc data).last <;> rfl
  unfold ilSinglyLinkedListAppend
  rw [if_neg hcount, h.count]
  refine ⟨_, entries ++ [list.fresh], rfl, ⟨hchain, ?_, ?_, ?_, ?_⟩, ?_⟩
  · rw [List.getLast?_concat]
    exact hlast
  · rw [List.length_append]
    rfl
  · intro r hr
    show r < ((list.alloc data).addLast list.fresh).fresh
    rw [hfresh]
    cases List.mem_append.1 hr with
    | inl hold => exact Nat.lt_succ_of_lt (h.fresh r hold)
    | inr hnew => exact List.mem_singleton.1 hnew ▸ Nat.lt_succ_self _
  · rw [List.length_append]
    exact hroom
  · have hdata : ((list.alloc data).addLast list.fresh).data =
        Function.update list.data list.fresh data := by rw [data_addLast, data_alloc]
    have hsame : ∀ r ∈ entries, Function.update list.data list.fresh data r = list.data r := by
      intro r hr
      have hlt := h.fresh r hr
      exact Function.update_of_ne (Nat.ne_of_lt hlt) ..
    calc (entries ++ [list.fresh]).map ((list.alloc data).addLast list.fresh).data
        = entries.map (Function.update list.data list.fresh data) ++ [data] := by
          rw [hdata, List.map_append, List.map_singleton, Function.update_self]
      _ = entries.map list.data ++ [data] := by rw [List.map_congr_left hsame]

/-! ### Searching -/

theorem getAtLoop_some (index : Nat) (r : Nat) : getAtLoop list index (some r) = list.data r := by
  induction index with
  | zero => rfl
  | succ index ih => exact ih

theorem Inv.getAt (h : list.Inv entries) (index : Int) :
    ilSinglyLinkedListGetAt list index =
      ((idxAt? (entries.map list.data) index).bind fun _ =>
        (entries.map list.data)[0]?).getD nullPtr := by
  unfold ilSinglyLinkedListGetAt idxAt?
  rw [h.count, List.length_map]
  by_cases hneg : index < 0
  · rw [if_pos hneg, if_neg (by omega)]
    rfl
  · by_cases hge : (entries.length : Int) ≤ index
    · rw [if_neg hneg, if_pos hge, if_neg (by omega)]
      rfl
    · rw [if_neg hneg, if_neg hge, if_pos (by omega)]
      have hchain := h.chain
      cases entries with
      | nil =>
        simp only [List.length_nil] at hge
        omega
      | cons r entries =>
        rw [hchain.of_cons.1, getAtLoop_some]
        rfl

/-- A search that leads to an entry, if anywhere, and where that is in the sequence. -/
def FoundAt (entries : List Nat) (found idx : Option Nat) : Prop :=
  (found = none ∧ idx = none) ∨
    ∃ pre r post, entries = pre ++ r :: post ∧ found = some r ∧ idx = some pre.length

theorem FoundAt.cons {found idx : Option Nat} (h : FoundAt entries found idx) :
    FoundAt (r :: entries) found (idx.map (· + 1)) := by
  cases h with
  | inl hnone =>
    obtain ⟨rfl, rfl⟩ := hnone
    exact .inl ⟨rfl, rfl⟩
  | inr hsome =>
    obtain ⟨pre, r', post, rfl, rfl, rfl⟩ := hsome
    exact .inr ⟨r :: pre, r', post, rfl, rfl, rfl⟩

theorem foundAt_find? (list : ILSinglyLinkedList) (entries : List Nat) (data : Ptr) :
    FoundAt entries (entries.find? fun r => list.data r = data)
      ((entries.map list.data).idxOf? data) := by
  induction entries with
  | nil => exact .inl ⟨rfl, rfl⟩
  | cons r entries ih =>
    rw [List.find?_cons, List.map_cons, List.idxOf?_cons]
    by_cases hr : list.data r = data
    · rw [decide_eq_true hr, if_pos (beq_iff_eq.2 hr)]
      exact .inr ⟨[], r, entries, rfl, rfl, rfl⟩
    · rw [decide_eq_false hr, if_neg fun hbeq => hr (beq_iff_eq.1 hbeq)]
      exact ih.cons

theorem Inv.setFound (h : list.Inv entries) (value : Ptr) {found idx : Option Nat}
    (hfound : FoundAt entries found idx) :
    (list.setFound (σ := σ) value found).1.Inv entries ∧
      setIdx (entries.map list.data) value idx =
        (entries.map (list.setFound (σ := σ) value found).1.data,
          (list.setFound (σ := σ) value found).2) := by
  cases hfound with
  | inl hnone =>
    obtain ⟨rfl, rfl⟩ := hnone
    exact ⟨h, rfl⟩
  | inr hsome =>
    obtain ⟨pre, r, post, rfl, rfl, rfl⟩ := hsome
    refine ⟨h.setData r value, ?_⟩
    simp only [setIdx, ILSinglyLinkedList.setFound, map_data_setData list h.chain.nodup]
    rw [List.map_append, List.map_cons, List.set_append_right _ _ (by simp)]
    simp

theorem Inv.find (h : list.Inv entries) (data : Ptr) :
    ilSinglyLinkedListFind list data = some (entries.find? fun r => list.data r = data) :=
  h.chain.seek _ h.length_le

/-- The last entry that holds some data, or what was found before. -/
theorem reverseFindLoop_chain {start : Option Nat} (h : Chain list.next start entries)
    (data : Ptr) {fuel : Nat} (hfuel : entries.length ≤ fuel) (found : Option Nat) :
    ∃ found', reverseFindLoop list data fuel start found = some found' ∧
      ((found' = found ∧ lastIdxOf? data (entries.map list.data) = none) ∨
        lastIdxOf? data (entries.map list.data) ≠ none ∧
          FoundAt entries found' (lastIdxOf? data (entries.map list.data))) := by
  induction h generalizing fuel found with
  | nil =>
    refine ⟨found, ?_, .inl ⟨rfl, rfl⟩⟩
    cases fuel <;> rfl
  | @cons r entries _ ih =>
    cases fuel with
    | zero => cases hfuel
    | succ fuel =>
      obtain ⟨found', hrun, hcases⟩ := ih (Nat.le_of_succ_le_succ hfuel)
        (if list.data r = data then some r else found)
      refine ⟨found', hrun, ?_⟩
      rw [List.map_cons, lastIdxOf?]
      cases hlast : lastIdxOf? data (entries.map list.data) with
      | some i =>
        rw [hlast] at hcases
        cases hcases with
        | inl hnone => cases hnone.2
        | inr hsome => exact .inr ⟨Option.some_ne_none _, hsome.2.cons⟩
      | none =>
        rw [hlast] at hcases
        cases hcases with
        | inr hsome => exact absurd rfl hsome.1
        | inl hnone =>
          by_cases hr : list.data r = data
          · have hfound : found' = some r := hnone.1.trans (if_pos hr)
            simp only [if_pos hr]
            exact .inr ⟨Option.some_ne_none _, .inr ⟨[], r, entries, rfl, hfound, rfl⟩⟩
          · simp only [if_neg hr]
            exact .inl ⟨hnone.1.trans (if_neg hr), trivial⟩

theorem Inv.reverseFind (h : list.Inv entries) (data : Ptr) :
    ∃ found, ilSinglyLinkedListReverseFind list data = some found ∧
      FoundAt entries found (lastIdxOf? data (entries.map list.data)) := by
  obtain ⟨found, hrun, hcases⟩ := reverseFindLoop_chain h.chain data h.length_le none
  refine ⟨found, hrun, ?_⟩
  cases hcases with
  | inl hnone => exact .inl hnone
  | inr hsome => exact hsome.2

/-! ### Removing -/

theorem Inv.unlink (h : list.Inv (pre ++ r :: post)) :
    (list.unlink pre.getLast? r).Inv (pre ++ post) ∧
      (list.unlink pre.getLast? r).data = list.data := by
  obtain ⟨middle, hmiddle⟩ := h.chain.of_append
  have hnext := hmiddle.of_cons.2
  have hend : list.next r = none ↔ post = [] := by
    constructor
    · intro hnone
      rw [hnone] at hnext
      exact hnext.unique .nil
    · rintro rfl
      exact hnext.of_nil
  have hcount : list.count - 1 = ((pre ++ post).length : Int) := by
    rw [h.count]
    simp only [List.length_append, List.length_cons]
    omega
  have hfresh : ∀ r' ∈ pre ++ post, r' < list.fresh := by
    intro r' hr'
    apply h.fresh
    simp only [List.mem_append, List.mem_cons] at hr' ⊢
    exact hr'.imp_right Or.inr
  have hle : (pre ++ post).length ≤ 2147483647 := by
    have hle := h.le
    simp only [List.length_append, List.length_cons] at hle ⊢
    omega
  have hlast : (if list.next r = none then pre.getLast? else list.last) =
      (pre ++ post).getLast? := by
    cases post with
    | nil => rw [if_pos (hend.2 rfl), List.append_nil]
    | cons r' post =>
      rw [if_neg fun hnone => List.cons_ne_nil _ _ (hend.1 hnone), h.last]
      simp
  cases hprev : pre.getLast? with
  | none =>
    have hempty : pre = [] := List.getLast?_eq_none_iff.1 hprev
    subst hempty
    exact ⟨⟨hnext, hlast, hcount, hfresh, hle⟩, rfl⟩
  | some p =>
    obtain ⟨init, rfl⟩ := List.getLast?_eq_some_iff.1 hprev
    have hchain := h.chain
    rw [List.append_assoc] at hchain
    have hunlinked := hchain.unlink
    rw [← next_setNext] at hunlinked
    refine ⟨⟨?_, ?_, hcount, hfresh, hle⟩, data_setNext ..⟩
    · rw [List.append_assoc]
      exact hunlinked
    · rw [hprev] at hlast
      exact hlast

variable (pre) in
/-- The loop stops at the first entry that passes the test. -/
theorem removeLoop_chain {start : Option Nat} {rest : List Nat} (h : Chain list.next start rest)
    (test : Nat → Ptr → Bool) {fuel : Nat} (hfuel : rest.length ≤ fuel) :
    (removeLoop list test fuel pre.getLast? start pre.length = some (list, -1) ∧
      ∀ i data, (rest.map list.data)[i]? = some data → test (pre.length + i) data = false) ∨
    ∃ mid r post, rest = mid ++ r :: post ∧
      removeLoop list test fuel pre.getLast? start pre.length =
        some (list.unlink (pre ++ mid).getLast? r, ((pre ++ mid).length : Int)) ∧
      test (pre ++ mid).length (list.data r) = true ∧
      ∀ i data, (mid.map list.data)[i]? = some data → test (pre.length + i) data = false := by
  induction h generalizing pre fuel with
  | nil =>
    refine .inl ⟨?_, fun i data hi => ?_⟩
    · cases fuel <;> rfl
    · cases hi
  | @cons r rest _ ih =>
    cases fuel with
    | zero => cases hfuel
    | succ fuel =>
      rw [removeLoop]
      cases htest : test pre.length (list.data r) with
      | true =>
        refine .inr ⟨[], r, rest, rfl, ?_, ?_, fun i data hi => by cases hi⟩
        · rw [List.append_nil]
          rfl
        · rwa [List.append_nil]
      | false =>
        have hih := ih (pre ++ [r]) (Nat.le_of_succ_le_succ hfuel)
        rw [List.getLast?_concat, List.length_append, List.length_singleton] at hih
        have hstep : ∀ (elems : List Ptr), (∀ i data, elems[i]? = some data →
            test (pre.length + 1 + i) data = false) →
            ∀ i data, (list.data r :: elems)[i]? = some data →
              test (pre.length + i) data = false := by
          intro elems hafter i data hi
          cases i with
          | zero =>
            cases hi
            exact htest
          | succ i =>
            have hlater := hafter i data hi
            rwa [Nat.add_assoc, Nat.add_comm 1 i] at hlater
        cases hih with
        | inl hnone => exact .inl ⟨hnone.1, hstep _ hnone.2⟩
        | inr hsome =>
          obtain ⟨mid, r', post, hsplit, hrun, hpass, hbefore⟩ := hsome
          rw [List.append_assoc] at hrun hpass
          exact .inr ⟨r :: mid, r', post, by rw [hsplit]; rfl, hrun, hpass, hstep _ hbefore⟩

/-- A removal by a test takes out the element that the sequence says. -/
theorem Inv.removeLoop (h : list.Inv entries) (test : Nat → Ptr → Bool) {idx : Option Nat}
    (hnone : idx = none → ∀ i data, (entries.map list.data)[i]? = some data →
      test i data = false)
    (hsome : ∀ n, idx = some n → ∃ data, (entries.map list.data)[n]? = some data ∧
      test n data = true ∧
      ∀ i data, i < n → (entries.map list.data)[i]? = some data → test i data = false) :
    ∃ list' entries' index, Support.removeLoop list test list.fresh none list.first 0 =
        some (list', index) ∧ list'.Inv entries' ∧
      removeIdx (σ := σ) (entries.map list.data) idx =
        (entries'.map list'.data, .index index) := by
  cases removeLoop_chain [] h.chain test h.length_le with
  | inl hout =>
    refine ⟨list, entries, -1, hout.1, h, ?_⟩
    cases idx with
    | none => rfl
    | some n =>
      obtain ⟨data, hdata, htest, _⟩ := hsome n rfl
      have hfail := hout.2 n data hdata
      rw [List.length_nil, Nat.zero_add] at hfail
      cases htest.symm.trans hfail
  | inr hin =>
    obtain ⟨mid, r, post, rfl, hrun, hpass, hbefore⟩ := hin
    rw [List.nil_append] at hrun hpass
    obtain ⟨h', hdata'⟩ := h.unlink
    refine ⟨_, mid ++ post, _, hrun, h', ?_⟩
    have hmid : ((mid ++ r :: post).map list.data)[mid.length]? = some (list.data r) := by
      simp
    have hidx : idx = some mid.length := by
      cases idx with
      | none => cases hpass.symm.trans (hnone rfl _ _ hmid)
      | some n =>
        obtain ⟨data, hdata, htest, hfirst⟩ := hsome n rfl
        congr 1
        by_contra hne
        cases Nat.lt_or_gt_of_ne hne with
        | inl hlt =>
          have hfail := hbefore n data (by
            rwa [List.map_append, List.getElem?_append_left (by simpa using hlt)] at hdata)
          rw [List.length_nil, Nat.zero_add] at hfail
          cases htest.symm.trans hfail
        | inr hgt => cases hpass.symm.trans (hfirst _ _ hgt hmid)
    rw [hidx, hdata', removeIdx, List.map_append, List.map_cons, List.map_append,
      List.eraseIdx_append_of_length_le (by simp)]
    simp

theorem Inv.remove (h : list.Inv entries) (data : Ptr) :
    ∃ list' entries' index, ilSinglyLinkedListRemove list data = some (list', index) ∧
      list'.Inv entries' ∧
      removeIdx (σ := σ) (entries.map list.data) ((entries.map list.data).idxOf? data) =
        (entries'.map list'.data, .index index) := by
  apply h.removeLoop
  · intro hnone i elem hi
    have hmem := List.mem_of_getElem? hi
    have hout := List.idxOf?_eq_none_iff.1 hnone
    exact decide_eq_false fun heq => hout (heq ▸ hmem)
  · intro n hn
    obtain ⟨hlt, helem, hfirst⟩ := List.idxOf?_eq_some_iff.1 hn
    refine ⟨data, helem ▸ List.getElem?_eq_getElem hlt, decide_eq_true rfl, ?_⟩
    intro i elem hi helem'
    exact decide_eq_false fun heq => hfirst i hi (heq ▸ (List.getElem?_eq_some_iff.1 helem').2)

theorem Inv.removeAt (h : list.Inv entries) (index : Int) :
    ∃ list' entries' result, ilSinglyLinkedListRemoveAt list index = some (list', result) ∧
      list'.Inv entries' ∧
      removeIdx (σ := σ) (entries.map list.data) (idxAt? (entries.map list.data) index) =
        (entries'.map list'.data, .index result) := by
  unfold ilSinglyLinkedListRemoveAt
  rw [h.count]
  by_cases hneg : index < 0
  · refine ⟨list, entries, -1, if_pos hneg, h, ?_⟩
    rw [idxAt?, if_neg (by omega), removeIdx]
  · by_cases hge : (entries.length : Int) ≤ index
    · refine ⟨list, entries, -1, by rw [if_neg hneg, if_pos hge], h, ?_⟩
      rw [idxAt?, List.length_map, if_neg (by omega), removeIdx]
    · have hidx : idxAt? (entries.map list.data) index = some index.toNat := by
        rw [idxAt?, List.length_map, if_pos (by omega)]
      have hlt : index.toNat < (entries.map list.data).length := by
        rw [List.length_map]
        omega
      rw [if_neg hneg, if_neg hge]
      apply h.removeLoop
      · intro hnone
        cases hidx.symm.trans hnone
      · intro n hn
        cases hidx.symm.trans hn
        refine ⟨_, List.getElem?_eq_getElem hlt, decide_eq_true (by omega), ?_⟩
        exact fun i _ hi _ => decide_eq_false (by omega)

/-! ### Walking -/

variable (pre) in
theorem Inv.walkLoop {rest : List Nat} (h : list.Inv (pre ++ rest)) {start : Option Nat}
    (hstart : Chain list.next start rest) (callback : ILListWalkCallback σ) {fuel : Nat}
    (hfuel : rest.length ≤ fuel) (state : σ) :
    ∃ list', Support.walkLoop callback fuel start pre.length list state =
        some (list', pre.length + (walkElems callback state (rest.map list.data)).2.1,
          (walkElems callback state (rest.map list.data)).2.2) ∧
      list'.Inv (pre ++ rest) ∧ (pre ++ rest).map list'.data =
        pre.map list.data ++ (walkElems callback state (rest.map list.data)).1 := by
  induction rest generalizing pre start list fuel state with
  | nil =>
    obtain rfl := hstart.of_nil
    refine ⟨list, ?_, h, ?_⟩
    · cases fuel <;> rfl
    · rw [List.append_nil]
      exact (List.append_nil _).symm
  | cons r rest ih =>
    obtain ⟨rfl, hrest⟩ := hstart.of_cons
    cases fuel with
    | zero => cases hfuel
    | succ fuel =>
      have hnodup := h.chain.nodup
      have hset := map_data_setData list hnodup (callback state (list.data r)).2.1
      have h' := h.setData r (callback state (list.data r)).2.1
      rw [Support.walkLoop, List.map_cons]
      unfold walkElems
      by_cases hmore : (callback state (list.data r)).1 = true
      · simp only [if_pos hmore]
        have hnot := (List.nodup_cons.1 (List.nodup_middle.1 hnodup)).1
        have hafter := map_data_setData_of_notMem list
          (fun hmem : r ∈ rest => hnot (List.mem_append_right _ hmem))
          (callback state (list.data r)).2.1
        have hchain : Chain (list.setData r (callback state (list.data r)).2.1).next
            (list.next r) rest := by
          rw [next_setData]
          exact hrest
        rw [List.append_cons] at h'
        obtain ⟨list', hwalk, hinv, helems⟩ := ih (pre ++ [r]) h' hchain
          (Nat.le_of_succ_le_succ hfuel) (callback state (list.data r)).2.2
        rw [hafter] at hwalk helems
        rw [List.length_append, List.length_singleton, Nat.add_assoc, Nat.add_comm 1] at hwalk
        rw [← List.append_cons] at hinv helems
        refine ⟨list', hwalk, hinv, ?_⟩
        rw [helems, List.map_append, map_data_setData_of_notMem list
          (fun hmem : r ∈ pre => hnot (List.mem_append_left _ hmem)), List.map_singleton,
          data_setData, Function.update_self, List.append_assoc]
        rfl
      · simp only [if_neg hmore]
        exact ⟨_, rfl, h', hset⟩

theorem Inv.walk (h : list.Inv entries) (callback : ILListWalkCallback σ) (state : σ) :
    ∃ list', ilSinglyLinkedListWalk list callback state =
        some (list', (walkElems callback state (entries.map list.data)).2) ∧
      list'.Inv entries ∧
      entries.map list'.data = (walkElems callback state (entries.map list.data)).1 := by
  obtain ⟨list', hwalk, hinv, helems⟩ :=
    Inv.walkLoop [] h h.chain callback h.length_le state
  rw [List.length_nil, Nat.zero_add] at hwalk
  exact ⟨list', hwalk, hinv, helems⟩

/-! ### The steps -/

/-- The entries of the list hold the sequence. -/
def Holds (list : ILSinglyLinkedList) (elems : List Ptr) : Prop :=
  ∃ entries, list.Inv entries ∧ entries.map list.data = elems

variable {elems : List Ptr}

theorem Holds.is (h : list.Holds elems) : list.Is elems := by
  obtain ⟨entries, hinv, rfl⟩ := h
  exact hinv.is

theorem Holds.run_of_meets (h : list.Holds elems) (op : ListOp σ)
    (hmeets : linkedMeets elems op) :
    ∃ list', ilSinglyLinkedListRun list op = some (list', (op.apply elems).2) ∧
      list'.Holds (op.apply elems).1 := by
  obtain ⟨entries, h, rfl⟩ := h
  cases op with
  | append data =>
    rw [linkedMeets, List.length_map] at hmeets
    obtain ⟨list', entries', hrun, h', helems⟩ := h.append hmeets data
    rw [ilSinglyLinkedListRun, ListOp.apply, hrun, List.length_map]
    exact ⟨list', rfl, entries', h', helems⟩
  | remove data =>
    obtain ⟨list', entries', index, hrun, h', hremove⟩ := h.remove (σ := σ) data
    rw [ilSinglyLinkedListRun, ListOp.apply, hrun, hremove]
    exact ⟨list', rfl, entries', h', rfl⟩
  | removeAt index =>
    obtain ⟨list', entries', result, hrun, h', hremove⟩ := h.removeAt (σ := σ) index
    rw [ilSinglyLinkedListRun, ListOp.apply, hrun, hremove]
    exact ⟨list', rfl, entries', h', rfl⟩
  | getAt index =>
    rw [ilSinglyLinkedListRun, ListOp.apply, h.getAt]
    refine ⟨list, ?_, entries, h, rfl⟩
    cases hidx : idxAt? (entries.map list.data) index with
    | none => rfl
    | some i => rw [Option.bind_some, Option.bind_some, hmeets i hidx]
  | find data value =>
    obtain ⟨h', hset⟩ := h.setFound (σ := σ) value (foundAt_find? list entries data)
    rw [ilSinglyLinkedListRun, ListOp.apply, h.find, hset]
    exact ⟨_, rfl, entries, h', rfl⟩
  | reverseFind data value =>
    obtain ⟨found, hrun, hfound⟩ := h.reverseFind data
    obtain ⟨h', hset⟩ := h.setFound (σ := σ) value hfound
    rw [ilSinglyLinkedListRun, ListOp.apply, hrun, hset]
    exact ⟨_, rfl, entries, h', rfl⟩
  | walk callback state =>
    obtain ⟨list', hrun, h', helems⟩ := h.walk callback state
    rw [ilSinglyLinkedListRun, ListOp.apply, hrun]
    exact ⟨list', rfl, entries, h', helems⟩

theorem Holds.run_of_not_meets (h : list.Holds elems) (op : ListOp σ)
    (hmeets : ¬ linkedMeets elems op) (list' : ILSinglyLinkedList)
    (hrun : ilSinglyLinkedListRun list op = some (list', (op.apply elems).2)) :
    ¬ list'.Is (op.apply elems).1 := by
  obtain ⟨entries, h, rfl⟩ := h
  cases op with
  | append data =>
    have hle := h.le
    rw [linkedMeets, List.length_map] at hmeets
    have hfull : list.count = 2147483647 := by
      rw [h.count]
      omega
    rw [ilSinglyLinkedListRun, ilSinglyLinkedListAppend, if_pos hfull] at hrun
    cases hrun
  | getAt index =>
    exfalso
    apply hmeets
    intro i hidx
    have hi := (idxAt?_eq_some hidx).1
    rw [ilSinglyLinkedListRun, ListOp.apply, h.getAt, hidx, Option.bind_some, Option.bind_some,
      List.getElem?_eq_getElem hi, List.getElem?_eq_getElem (Nat.zero_lt_of_lt hi)] at hrun
    have hdata := ListResult.data.inj (Prod.mk.inj (Option.some.inj hrun)).2
    rw [List.getElem?_eq_getElem hi, List.getElem?_eq_getElem (Nat.zero_lt_of_lt hi)]
    exact congrArg some hdata.symm
  | remove data => exact absurd trivial hmeets
  | removeAt index => exact absurd trivial hmeets
  | find data value => exact absurd trivial hmeets
  | reverseFind data value => exact absurd trivial hmeets
  | walk callback state => exact absurd trivial hmeets

end ILSinglyLinkedList

/-! ### Runs -/

/-- Both lists give, at every step of a run, the results of the sequence and are the
sequence, exactly as long as every step meets the condition for its list. -/
theorem ilList_agrees_iff (garbage : Garbage) (capacity : Int) (ops : List (ListOp σ)) :
    (Agrees (ilArrayListRun garbage) ListOp.apply ILArrayList.Is
        (ilArrayListCreate garbage capacity) [] ops ↔
      MeetsAll ListOp.apply (arrayMeets (max capacity 16).toNat) [] ops) ∧
    (Agrees ilSinglyLinkedListRun ListOp.apply ILSinglyLinkedList.Is
        ilSinglyLinkedListCreate [] ops ↔
      MeetsAll ListOp.apply linkedMeets [] ops) := by
  constructor
  · apply agrees_iff_meetsAll (fun _ _ => ILArrayList.Inv.is)
      (fun _ _ op h => h.run_of_meets op) (fun _ _ op h => h.run_of_not_meets op)
    exact ILArrayList.inv_create garbage capacity
  · apply agrees_iff_meetsAll (fun _ _ => ILSinglyLinkedList.Holds.is)
      (fun _ _ op h => h.run_of_meets op) (fun _ _ op h => h.run_of_not_meets op)
    exact ⟨[], ILSinglyLinkedList.inv_create, rfl⟩

/-- Asking an empty array list to remove what it does not hold makes its count negative. -/
theorem ilArrayList_not_agrees :
    ¬ Agrees (ilArrayListRun fun _ => 0) ListOp.apply ILArrayList.Is
      (ilArrayListCreate (fun _ => 0) 0) [] ([.remove nullPtr] : List (ListOp Unit)) := by
  intro h
  obtain ⟨list', hrun, his, _⟩ := h
  have hlist : list'.count = -1 := by
    cases hrun
    rfl
  have hcount : list'.count = 0 := his.1
  omega

end Pnet.Support
