import Pnet.Support.Intern

/-! Interning is canonical as long as no `Concat4` or `Concat5` puts nothing together. -/
namespace Pnet.Support
open Pnet.Lib

namespace InternTable

/-- `chains` are the entries of each bucket: all entries, each where its hash puts it. -/
structure Inv (t : InternTable) (chains : Nat → List Nat) : Prop where
  chain : ∀ hash, Chain t.next (t.hashTable hash) (chains hash)
  mem : ∀ hash id, id ∈ chains hash ↔ id < t.fresh ∧ bucket (ilHashString 0 (t.str id)) = hash
  unique : ∀ id < t.fresh, ∀ id' < t.fresh, t.str id = t.str id' → id = id'
  nonempty : ∀ id < t.fresh, t.str id ≠ []

/-- A string that interning has given out. -/
def Valid (t : InternTable) (r : ILIntString) : Prop :=
  r = emptyResult ∨ ∃ id < t.fresh, r = ⟨.entry id, (t.str id).length⟩

/-- Entries are added, none is changed. -/
structure Extends (t t' : InternTable) : Prop where
  fresh : t.fresh ≤ t'.fresh
  str : ∀ id < t.fresh, t'.str id = t.str id

variable {t t' : InternTable} {chains : Nat → List Nat} {r : ILIntString}
  {str : List ILUInt8} {test : List ILUInt8 → Bool}

theorem inv_empty : empty.Inv fun _ => [] := by
  refine ⟨fun _ => .nil, fun hash id => ?_, fun id hid => ?_, fun id hid => ?_⟩
  · constructor
    · intro hmem
      cases hmem
    · intro hmem
      exact absurd hmem.1 (Nat.not_lt_zero id)
  · exact absurd hid (Nat.not_lt_zero id)
  · exact absurd hid (Nat.not_lt_zero id)

theorem Extends.refl (t : InternTable) : t.Extends t := ⟨Nat.le_refl _, fun _ _ => rfl⟩

theorem bytes_entry (id : Nat) : t.bytes ⟨.entry id, (t.str id).length⟩ = t.str id :=
  List.take_length

theorem Valid.length (h : t.Valid r) : (t.bytes r).length = r.len := by
  cases h with
  | inl hempty =>
    rw [hempty]
    rfl
  | inr hentry =>
    obtain ⟨id, _, rfl⟩ := hentry
    rw [bytes_entry]

theorem Valid.extend (h : t.Valid r) (hext : t.Extends t') :
    t'.Valid r ∧ t'.bytes r = t.bytes r := by
  cases h with
  | inl hempty =>
    rw [hempty]
    exact ⟨.inl rfl, rfl⟩
  | inr hentry =>
    obtain ⟨id, hid, rfl⟩ := hentry
    rw [← hext.str id hid, bytes_entry, hext.str id hid]
    exact ⟨.inr ⟨id, Nat.lt_of_lt_of_le hid hext.fresh, by rw [hext.str id hid]⟩,
      (bytes_entry id).symm⟩

/-- Only the empty result stands for nothing. -/
theorem Inv.eq_emptyResult (h : t.Inv chains) (hr : t.Valid r) (hbytes : t.bytes r = []) :
    r = emptyResult := by
  cases hr with
  | inl hempty => exact hempty
  | inr hentry =>
    obtain ⟨id, hid, rfl⟩ := hentry
    rw [bytes_entry] at hbytes
    exact absurd hbytes (h.nonempty id hid)

theorem Inv.valid_eq (h : t.Inv chains) {r' : ILIntString} (hr : t.Valid r) (hr' : t.Valid r')
    (hbytes : t.bytes r = t.bytes r') : r = r' := by
  cases hr with
  | inl hempty =>
    subst hempty
    exact (h.eq_emptyResult hr' hbytes.symm).symm
  | inr hentry =>
    obtain ⟨id, hid, rfl⟩ := hentry
    cases hr' with
    | inl hempty =>
      subst hempty
      rw [bytes_entry] at hbytes
      exact absurd hbytes (h.nonempty id hid)
    | inr hentry' =>
      obtain ⟨id', hid', rfl⟩ := hentry'
      rw [bytes_entry, bytes_entry] at hbytes
      rw [h.unique id hid id' hid' hbytes]

/-! ### Searching and adding -/

theorem Inv.length_le (h : t.Inv chains) (hash : Nat) : (chains hash).length ≤ t.fresh := by
  have hle := length_le_of_mem (h.chain hash).nodup fun id hid =>
    List.mem_range.2 ((h.mem hash id).1 hid).1
  rwa [List.length_range] at hle

theorem next_add (hash : ILUInt64) : (t.add hash str).1.next =
    Function.update t.next t.fresh (t.hashTable (bucket hash)) := by
  funext id
  unfold next add
  by_cases hid : id = t.fresh
  · rw [hid]
    simp only [Function.update_self]
  · simp only [Function.update_of_ne hid]

theorem str_add (hash : ILUInt64) :
    (t.add hash str).1.str = Function.update t.str t.fresh str := by
  funext id
  unfold InternTable.str add
  by_cases hid : id = t.fresh
  · rw [hid]
    simp only [Function.update_self]
  · simp only [Function.update_of_ne hid]

theorem extends_add (hash : ILUInt64) : t.Extends (t.add hash str).1 := by
  refine ⟨Nat.le_succ _, fun id hid => ?_⟩
  rw [str_add, Function.update_of_ne (Nat.ne_of_lt hid)]

theorem bytes_add (hash : ILUInt64) : (t.add hash str).1.bytes (t.add hash str).2 = str := by
  show ((t.add hash str).1.str t.fresh).take str.length = str
  rw [str_add, Function.update_self, List.take_length]

theorem valid_add (hash : ILUInt64) : (t.add hash str).1.Valid (t.add hash str).2 := by
  refine .inr ⟨t.fresh, Nat.lt_succ_self _, ?_⟩
  rw [str_add, Function.update_self]
  rfl

theorem Inv.add (h : t.Inv chains) (hne : str ≠ []) (hnew : ∀ id < t.fresh, t.str id ≠ str) :
    (t.add (ilHashString 0 str) str).1.Inv
      (Function.update chains (bucket (ilHashString 0 str))
        (t.fresh :: chains (bucket (ilHashString 0 str)))) := by
  have hfresh : ∀ hash, t.fresh ∉ chains hash := fun hash hmem =>
    Nat.lt_irrefl _ ((h.mem hash _).1 hmem).1
  have hkeep : ∀ hash, Chain (Function.update t.next t.fresh
      (t.hashTable (bucket (ilHashString 0 str)))) (t.hashTable hash) (chains hash) := by
    intro hash
    refine (h.chain hash).congr fun id hid => Function.update_of_ne (fun heq : id = _ => ?_) ..
    exact hfresh hash (heq ▸ hid)
  have hcases : ∀ id, id < t.fresh + 1 → id = t.fresh ∨ id ≠ t.fresh ∧ id < t.fresh := by omega
  constructor
  · intro hash
    rw [next_add]
    show Chain _ (Function.update t.hashTable _ _ hash) _
    by_cases hhash : hash = bucket (ilHashString 0 str)
    · rw [hhash, Function.update_self, Function.update_self]
      apply Chain.cons
      rw [Function.update_self]
      exact hkeep _
    · rw [Function.update_of_ne hhash, Function.update_of_ne hhash]
      exact hkeep hash
  · intro hash id
    rw [str_add]
    show _ ↔ id < t.fresh + 1 ∧ _
    by_cases hid : id = t.fresh
    · subst hid
      rw [Function.update_self]
      by_cases hhash : hash = bucket (ilHashString 0 str)
      · rw [hhash, Function.update_self]
        exact ⟨fun _ => ⟨Nat.lt_succ_self _, rfl⟩, fun _ => List.mem_cons_self ..⟩
      · rw [Function.update_of_ne hhash]
        exact ⟨fun hmem => absurd hmem (hfresh hash), fun hmem => absurd hmem.2.symm hhash⟩
    · have hlt : id < t.fresh + 1 ↔ id < t.fresh := by omega
      rw [Function.update_of_ne hid, hlt, ← h.mem hash id]
      by_cases hhash : hash = bucket (ilHashString 0 str)
      · rw [hhash, Function.update_self, List.mem_cons, or_iff_right hid]
      · rw [Function.update_of_ne hhash]
  · intro id hid id' hid' heq
    rw [str_add] at heq
    cases hcases id hid with
    | inl hnew₁ =>
      cases hcases id' hid' with
      | inl hnew₂ => rw [hnew₁, hnew₂]
      | inr hold₂ =>
        rw [hnew₁, Function.update_self, Function.update_of_ne hold₂.1] at heq
        exact absurd heq.symm (hnew id' hold₂.2)
    | inr hold₁ =>
      cases hcases id' hid' with
      | inl hnew₂ =>
        rw [hnew₂, Function.update_self, Function.update_of_ne hold₁.1] at heq
        exact absurd heq (hnew id hold₁.2)
      | inr hold₂ =>
        rw [Function.update_of_ne hold₁.1, Function.update_of_ne hold₂.1] at heq
        exact h.unique id hold₁.2 id' hold₂.2 heq
  · intro id hid
    rw [str_add]
    cases hcases id hid with
    | inl hnew => rwa [hnew, Function.update_self]
    | inr hold =>
      rw [Function.update_of_ne hold.1]
      exact h.nonempty id hold.2

section
variable (h : t.Inv chains) (htest : ∀ s, test s = true ↔ s = str)
include h htest

/-- The search finds the entry with the bytes, if there is one. -/
theorem Inv.seek_bucket :
    seek t.next (fun id => test (t.str id)) t.fresh
        (t.hashTable (bucket (ilHashString 0 str))) = some none ∧
      (∀ id < t.fresh, t.str id ≠ str) ∨
    ∃ id < t.fresh, t.str id = str ∧ seek t.next (fun id => test (t.str id)) t.fresh
      (t.hashTable (bucket (ilHashString 0 str))) = some (some id) := by
  rw [(h.chain _).seek _ (h.length_le _)]
  cases hfind : (chains (bucket (ilHashString 0 str))).find? (fun id => test (t.str id)) with
  | none =>
    refine .inl ⟨rfl, fun id hid heq => ?_⟩
    have hmem := (h.mem (bucket (ilHashString 0 str)) id).2 ⟨hid, by rw [heq]⟩
    exact List.find?_eq_none.1 hfind id hmem ((htest _).2 heq)
  | some id =>
    have hmem := (h.mem _ id).1 (List.mem_of_find?_eq_some hfind)
    have hpass : test (t.str id) = true := by
      have hsome := List.find?_some hfind
      exact hsome
    exact .inr ⟨id, hmem.1, (htest _).1 hpass, rfl⟩

theorem Inv.findOrAdd (hne : str ≠ []) :
    ∃ t' r chains', t.findOrAdd (ilHashString 0 str) test str = some (t', r) ∧ t'.Inv chains' ∧
      t.Extends t' ∧ t'.Valid r ∧ t'.bytes r = str := by
  unfold InternTable.findOrAdd
  cases h.seek_bucket htest with
  | inl hnone =>
    rw [hnone.1]
    exact ⟨_, _, _, rfl, h.add hne hnone.2, extends_add _, valid_add _, bytes_add _⟩
  | inr hsome =>
    obtain ⟨id, hid, hstr, hseek⟩ := hsome
    rw [hseek]
    refine ⟨t, _, chains, rfl, h, .refl t, .inr ⟨id, hid, rfl⟩, ?_⟩
    rw [bytes_entry, hstr]

/-- No entry is empty, so nothing is found for no bytes. -/
theorem Inv.findOrAdd_empty (hempty : str = []) :
    t.findOrAdd (ilHashString 0 str) test str = some (t.add (ilHashString 0 str) str) := by
  unfold InternTable.findOrAdd
  cases h.seek_bucket htest with
  | inl hnone => rw [hnone.1]
  | inr hsome =>
    obtain ⟨id, hid, hstr, _⟩ := hsome
    exact absurd (hstr.trans hempty) (h.nonempty id hid)

end

/-! ### Putting pieces together -/

theorem hashPieces_eq (pieces : List (List ILUInt8)) :
    hashPieces pieces = ilHashString 0 pieces.flatten := by
  unfold hashPieces ilHashString
  rw [List.foldl_flatten]

theorem matchPieces_iff {pieces : List (List ILUInt8)} {posn : Nat}
    (hlength : str.length = posn + pieces.flatten.length) :
    matchPieces str posn pieces = true ↔ str.drop posn = pieces.flatten := by
  induction pieces generalizing posn with
  | nil =>
    have hdrop : str.drop posn = [] := List.drop_eq_nil_of_le (Nat.le_of_eq hlength)
    rw [hdrop]
    exact ⟨fun _ => rfl, fun _ => rfl⟩
  | cons piece pieces ih =>
    rw [List.flatten_cons, List.length_append, ← Nat.add_assoc] at hlength
    unfold matchPieces
    constructor
    · intro hmatch
      split at hmatch
      · rename_i hpiece
        have hrest := (ih hlength).1 hmatch
        rw [List.flatten_cons, ← hrest, ← List.drop_drop]
        conv_lhs => rw [← List.take_append_drop piece.length (str.drop posn), hpiece]
      · cases hmatch
    · intro heq
      rw [heq, List.flatten_cons, List.take_left, if_pos rfl]
      apply (ih hlength).2
      rw [← List.drop_drop, heq, List.flatten_cons, List.drop_left]

theorem sum_len {strs : List ILIntString} (hvalid : ∀ r ∈ strs, t.Valid r) :
    (strs.map ILIntString.len).sum = (strs.map t.bytes).flatten.length := by
  rw [List.length_flatten, List.map_map]
  congr 1
  exact List.map_congr_left fun r hr => (hvalid r hr).length.symm

theorem testPieces_iff (pieces : List (List ILUInt8)) {len : Nat}
    (hlen : len = pieces.flatten.length) (s : List ILUInt8) :
    decide (s.length = len ∧ matchPieces s 0 pieces = true) = true ↔ s = pieces.flatten := by
  rw [decide_eq_true_iff, hlen]
  constructor
  · intro hboth
    have hmatch := (matchPieces_iff (by rw [Nat.zero_add]; exact hboth.1)).1 hboth.2
    rwa [List.drop_zero] at hmatch
  · intro heq
    have hlength : s.length = pieces.flatten.length := congrArg List.length heq
    refine ⟨hlength, (matchPieces_iff (by rw [Nat.zero_add]; exact hlength)).2 ?_⟩
    rwa [List.drop_zero]

section
variable (h : t.Inv chains) {strs : List ILIntString} (hvalid : ∀ r ∈ strs, t.Valid r)
  (hle : (strs.map t.bytes).flatten.length ≤ 2147483647)
include h hvalid hle

theorem Inv.internPieces (hne : (strs.map t.bytes).flatten ≠ []) :
    ∃ t' r chains', Support.internPieces t strs = some (t', r) ∧ t'.Inv chains' ∧ t.Extends t' ∧
      t'.Valid r ∧ t'.bytes r = (strs.map t.bytes).flatten := by
  unfold Support.internPieces
  rw [sum_len hvalid, if_neg (Nat.not_lt.2 hle), hashPieces_eq]
  exact h.findOrAdd (testPieces_iff _ rfl) hne

theorem Inv.internPieces_empty (hempty : (strs.map t.bytes).flatten = []) :
    ∃ t' r, Support.internPieces t strs = some (t', r) ∧ t.Extends t' ∧ r = ⟨.entry t.fresh, 0⟩ ∧
      t'.bytes r = [] := by
  unfold Support.internPieces
  rw [sum_len hvalid, if_neg (Nat.not_lt.2 hle), hashPieces_eq,
    h.findOrAdd_empty (testPieces_iff _ rfl) hempty]
  refine ⟨_, _, rfl, extends_add _, ?_, (bytes_add _).trans hempty⟩
  exact congrArg (fun len => ILIntString.mk (.entry t.fresh) len) (congrArg List.length hempty)

end

end InternTable

open InternTable

namespace InternState

/-- `denoted` are the bytes of the results. -/
structure Inv (s : InternState) (denoted : List (List ILUInt8)) : Prop where
  table : ∃ chains, s.table.Inv chains
  valid : ∀ r ∈ s.results, s.table.Valid r
  len : ∀ r ∈ s.results, r.len ≤ 2147483647
  denoted_eq : s.results.map s.table.bytes = denoted

variable {s : InternState} {denoted : List (List ILUInt8)}

theorem inv_init : init.Inv [] :=
  ⟨⟨_, inv_empty⟩, fun _ hr => absurd hr List.not_mem_nil, fun _ hr => absurd hr List.not_mem_nil,
    rfl⟩

theorem Inv.is (h : s.Inv denoted) : s.Is denoted := by
  obtain ⟨chains, htable⟩ := h.table
  refine ⟨h.denoted_eq, fun r hr r' hr' => ?_⟩
  constructor
  · intro hstring
    have hsame : r = r' := by
      cases h.valid r hr with
      | inl hempty =>
        cases h.valid r' hr' with
        | inl hempty' => rw [hempty, hempty']
        | inr hentry' =>
          obtain ⟨id', _, rfl⟩ := hentry'
          rw [hempty] at hstring
          cases hstring
      | inr hentry =>
        obtain ⟨id, _, rfl⟩ := hentry
        cases h.valid r' hr' with
        | inl hempty' =>
          rw [hempty'] at hstring
          cases hstring
        | inr hentry' =>
          obtain ⟨id', _, rfl⟩ := hentry'
          cases hstring
          rfl
    rw [hsame]
    exact ⟨rfl, rfl⟩
  · intro hbytes
    rw [htable.valid_eq (h.valid r hr) (h.valid r' hr') hbytes.2]

/-- A call that goes well. -/
def Good (s : InternState) (bytes : List ILUInt8) (result : Option (InternTable × ILIntString)) :
    Prop :=
  ∃ t' r chains', result = some (t', r) ∧ t'.Inv chains' ∧ s.table.Extends t' ∧ t'.Valid r ∧
    t'.bytes r = bytes

/-- A result that is not the empty string, and stands for nothing. -/
def Duplicate (s : InternState) (result : Option (InternTable × ILIntString)) : Prop :=
  ∃ t' id, result = some (t', ⟨.entry id, 0⟩) ∧ s.table.Extends t' ∧
    t'.bytes ⟨.entry id, 0⟩ = []

theorem bytes_eq_nil (h : s.Inv denoted) {r : ILIntString} (hr : r ∈ s.results) (hlen : r.len = 0) :
    s.table.bytes r = [] :=
  List.eq_nil_of_length_eq_zero ((h.valid r hr).length.trans hlen)

theorem bytes_ne_nil (h : s.Inv denoted) {r : ILIntString} (hr : r ∈ s.results)
    (hlen : ¬ r.len = 0) : s.table.bytes r ≠ [] := by
  intro hempty
  apply hlen
  rw [← (h.valid r hr).length, hempty]
  rfl

/-- What a call with these bytes to put together does. -/
structure CallSpec (s : InternState) (noExit : Prop) (bytes : List ILUInt8)
    (result : Option (InternTable × ILIntString)) : Prop where
  good : bytes.length ≤ 2147483647 → (noExit → bytes ≠ []) → s.Good bytes result
  long : ¬ bytes.length ≤ 2147483647 → result = none
  duplicate : noExit → bytes = [] → s.Duplicate result

variable {bytes : List ILUInt8} {result : Option (InternTable × ILIntString)}

theorem CallSpec.of_ne (h : s.CallSpec True bytes result) (hne : bytes ≠ []) :
    s.CallSpec False bytes result :=
  ⟨fun hle _ => h.good hle fun _ => hne, h.long, fun hfalse => hfalse.elim⟩

section
variable (h : s.Inv denoted) {str1 str2 str3 : ILIntString} (h1 : str1 ∈ s.results)
  (h2 : str2 ∈ s.results) (h3 : str3 ∈ s.results)
include h

theorem Inv.early {r : ILIntString} (hr : r ∈ s.results) :
    s.CallSpec False (s.table.bytes r) (some (s.table, r)) := by
  obtain ⟨chains, htable⟩ := h.table
  have hvalid := h.valid r hr
  refine ⟨fun _ _ => ⟨_, _, chains, rfl, htable, .refl _, hvalid, rfl⟩, fun hlong => ?_,
    fun hfalse => hfalse.elim⟩
  rw [hvalid.length] at hlong
  exact absurd (h.len r hr) hlong

theorem Inv.internPieces (strs : List ILIntString) (hmem : ∀ r ∈ strs, r ∈ s.results) :
    s.CallSpec True (strs.map s.table.bytes).flatten (Support.internPieces s.table strs) := by
  obtain ⟨chains, htable⟩ := h.table
  have hvalid : ∀ r ∈ strs, s.table.Valid r := fun r hr => h.valid r (hmem r hr)
  constructor
  · intro hle hne
    exact htable.internPieces hvalid hle (hne trivial)
  · intro hlong
    unfold Support.internPieces
    rw [sum_len hvalid, if_pos (Nat.lt_of_not_le hlong)]
  · intro _ hempty
    have hle : (strs.map s.table.bytes).flatten.length ≤ 2147483647 := by
      rw [hempty]
      exact Nat.zero_le _
    obtain ⟨t', r, hrun, hext, rfl, hbytes⟩ := htable.internPieces_empty hvalid hle hempty
    exact ⟨t', _, hrun, hext, hbytes⟩

include h1 h2 in
theorem Inv.appended : s.CallSpec False ([str1, str2].map s.table.bytes).flatten
    (ilInternAppendedString s.table str1 str2) := by
  have hpieces := h.internPieces [str1, str2] (by simp [h1, h2])
  unfold ilInternAppendedString
  simp only [List.map_cons, List.map_nil, List.flatten_cons, List.flatten_nil, List.append_nil]
    at hpieces ⊢
  by_cases hlen1 : str1.len = 0
  · rw [if_pos hlen1, bytes_eq_nil h h1 hlen1]
    exact h.early h2
  · by_cases hlen2 : str2.len = 0
    · rw [if_neg hlen1, if_pos hlen2, bytes_eq_nil h h2 hlen2, List.append_nil]
      exact h.early h1
    · rw [if_neg hlen1, if_neg hlen2]
      exact hpieces.of_ne (List.append_ne_nil_of_left_ne_nil (bytes_ne_nil h h1 hlen1) _)

include h1 h2 h3 in
theorem Inv.concat3 : s.CallSpec False ([str1, str2, str3].map s.table.bytes).flatten
    (ilInternStringConcat3 s.table str1 str2 str3) := by
  have hpieces := h.internPieces [str1, str2, str3] (by simp [h1, h2, h3])
  unfold ilInternStringConcat3
  simp only [List.map_cons, List.map_nil, List.flatten_cons, List.flatten_nil, List.append_nil]
    at hpieces ⊢
  by_cases h12 : str1.len = 0 ∧ str2.len = 0
  · rw [if_pos h12, bytes_eq_nil h h1 h12.1, bytes_eq_nil h h2 h12.2]
    exact h.early h3
  · by_cases h13 : str1.len = 0 ∧ str3.len = 0
    · rw [if_neg h12, if_pos h13, bytes_eq_nil h h1 h13.1, bytes_eq_nil h h3 h13.2,
        List.append_nil]
      exact h.early h2
    · by_cases h23 : str2.len = 0 ∧ str3.len = 0
      · rw [if_neg h12, if_neg h13, if_pos h23, bytes_eq_nil h h2 h23.1, bytes_eq_nil h h3 h23.2,
          List.append_nil, List.append_nil]
        exact h.early h1
      · rw [if_neg h12, if_neg h13, if_neg h23]
        apply hpieces.of_ne
        intro hempty
        obtain ⟨hempty1, hempty2, hempty3⟩ : s.table.bytes str1 = [] ∧ s.table.bytes str2 = [] ∧
            s.table.bytes str3 = [] := by simpa using hempty
        apply h12
        rw [← (h.valid str1 h1).length, ← (h.valid str2 h2).length, hempty1, hempty2]
        exact ⟨rfl, rfl⟩

theorem Inv.callSpec_empty : s.CallSpec False [] (some (s.table, emptyResult)) := by
  obtain ⟨chains, htable⟩ := h.table
  refine ⟨fun _ _ => ⟨_, _, chains, rfl, htable, .refl _, .inl rfl, rfl⟩, fun hlong => ?_,
    fun hfalse => hfalse.elim⟩
  exact absurd (Nat.zero_le _) hlong

end

theorem strlen_le {str : Option (List ILUInt8)} {len : Nat} (h : strlen str = some len) :
    len ≤ 2147483647 := by
  unfold strlen at h
  obtain ⟨buf, _, h⟩ := Option.bind_eq_some_iff.1 h
  obtain ⟨len', _, h⟩ := Option.bind_eq_some_iff.1 h
  split at h
  · cases h
    assumption
  · cases h

theorem toNat_le {len : ILInt32} (h : ¬ len.toInt < 0) : len.toNat ≤ 2147483647 := by
  rw [BitVec.toInt_eq_toNat_cond] at h
  split at h <;> omega

theorem Inv.internString (h : s.Inv denoted) (str : Option (List ILUInt8)) (len : ILInt32) :
    (∀ bytes, internBytes str len = some bytes →
      s.CallSpec False bytes (ilInternString s.table str len)) ∧
    (internBytes str len = none → ilInternString s.table str len = none) := by
  obtain ⟨chains, htable⟩ := h.table
  have hle : ∀ n, (if len.toInt < 0 then strlen str else some len.toNat) = some n →
      n ≤ 2147483647 := by
    intro n hn
    by_cases hneg : len.toInt < 0
    · rw [if_pos hneg] at hn
      exact strlen_le hn
    · rw [if_neg hneg] at hn
      cases hn
      exact toNat_le hneg
  unfold internBytes ilInternString
  cases hcount : (if len.toInt < 0 then strlen str else some len.toNat) with
  | none => exact ⟨fun _ hbytes => (Option.some_ne_none _ hbytes.symm).elim, fun _ => rfl⟩
  | some n =>
    have hn := hle n hcount
    simp only [Option.bind_some]
    cases str with
    | none =>
      refine ⟨fun bytes hbytes => ?_, fun hbytes => ?_⟩
      · cases hbytes
        exact h.callSpec_empty
      · cases hbytes
    | some buf =>
      simp only [reduceCtorEq, if_false, Option.getD_some]
      by_cases hread : n ≤ buf.length
      · rw [if_pos hread, if_neg (Nat.not_lt.2 hread)]
        refine ⟨fun bytes hbytes => ?_, fun hbytes => (Option.some_ne_none _ hbytes).elim⟩
        obtain rfl := Option.some.inj hbytes
        by_cases hzero : n = 0
        · rw [if_pos hzero, hzero]
          exact h.callSpec_empty
        · have hlength : (buf.take n).length = n := List.length_take_of_le hread
          have hne : buf.take n ≠ [] := fun hempty => hzero (by rw [← hlength, hempty]; rfl)
          rw [if_neg hzero]
          refine ⟨fun _ _ => ?_, fun hlong => absurd (hlength.trans_le hn) hlong, fun hfalse => hfalse.elim⟩
          exact htable.findOrAdd (fun entry => decide_eq_true_iff) hne
      · have hzero : ¬ n = 0 := fun hzero => hread (hzero ▸ Nat.zero_le _)
        rw [if_neg hread, if_neg hzero, if_pos (Nat.lt_of_not_le hread)]
        exact ⟨fun _ hbytes => (Option.some_ne_none _ hbytes.symm).elim, fun _ => rfl⟩

/-! ### Steps -/

/-- What a call does whose pieces may not be there. -/
def Fits (s : InternState) (noExit : Prop) (pieces : Option (List (List ILUInt8)))
    (result : Option (InternTable × ILIntString)) : Prop :=
  (∀ p, pieces = some p → s.CallSpec noExit p.flatten result) ∧ (pieces = none → result = none)

theorem fits_none {noExit : Prop} : s.Fits noExit none none :=
  ⟨fun _ hnone => (Option.some_ne_none _ hnone.symm).elim, fun _ => rfl⟩

theorem fits_some {noExit : Prop} {pieces : List (List ILUInt8)}
    (h : s.CallSpec noExit pieces.flatten result) : s.Fits noExit (some pieces) result :=
  ⟨fun _ hp => Option.some.inj hp ▸ h, fun hnone => (Option.some_ne_none _ hnone).elim⟩

theorem Inv.call (h : s.Inv denoted) (call : InternCall) :
    s.Fits call.noExit (call.pieces denoted) (s.call call) := by
  have hmem : ∀ {i r}, s.results[i]? = some r → r ∈ s.results := List.mem_of_getElem?
  rw [← h.denoted_eq]
  cases call with
  | internString str len =>
    obtain ⟨hsome, hnone⟩ := h.internString str len
    simp only [InternCall.pieces, InternState.call, InternCall.noExit]
    cases hbytes : internBytes str len with
    | none =>
      rw [hnone hbytes]
      exact fits_none
    | some bytes =>
      have hspec := hsome bytes hbytes
      rw [← List.flatten_singleton (l := bytes)] at hspec
      exact fits_some hspec
  | appended str1 str2 =>
    simp only [InternCall.pieces, InternState.call, InternCall.noExit, List.getElem?_map]
    cases h1 : s.results[str1]? with
    | none => exact fits_none
    | some r1 =>
      cases h2 : s.results[str2]? with
      | none => exact fits_none
      | some r2 =>
        exact fits_some (h.appended (hmem h1) (hmem h2))
  | concat3 str1 str2 str3 =>
    simp only [InternCall.pieces, InternState.call, InternCall.noExit, List.getElem?_map]
    cases h1 : s.results[str1]? with
    | none => exact fits_none
    | some r1 =>
      cases h2 : s.results[str2]? with
      | none => exact fits_none
      | some r2 =>
        cases h3 : s.results[str3]? with
        | none => exact fits_none
        | some r3 =>
          exact fits_some (h.concat3 (hmem h1) (hmem h2) (hmem h3))
  | concat4 str1 str2 str3 str4 =>
    simp only [InternCall.pieces, InternState.call, InternCall.noExit, List.getElem?_map]
    cases h1 : s.results[str1]? with
    | none => exact fits_none
    | some r1 =>
      cases h2 : s.results[str2]? with
      | none => exact fits_none
      | some r2 =>
        cases h3 : s.results[str3]? with
        | none => exact fits_none
        | some r3 =>
          cases h4 : s.results[str4]? with
          | none => exact fits_none
          | some r4 =>
            exact fits_some (h.internPieces [r1, r2, r3, r4]
            (by simp [hmem h1, hmem h2, hmem h3, hmem h4]))
  | concat5 str1 str2 str3 str4 str5 =>
    simp only [InternCall.pieces, InternState.call, InternCall.noExit, List.getElem?_map]
    cases h1 : s.results[str1]? with
    | none => exact fits_none
    | some r1 =>
      cases h2 : s.results[str2]? with
      | none => exact fits_none
      | some r2 =>
        cases h3 : s.results[str3]? with
        | none => exact fits_none
        | some r3 =>
          cases h4 : s.results[str4]? with
          | none => exact fits_none
          | some r4 =>
            cases h5 : s.results[str5]? with
            | none => exact fits_none
            | some r5 =>
              exact fits_some (h.internPieces [r1, r2, r3, r4, r5]
              (by simp [hmem h1, hmem h2, hmem h3, hmem h4, hmem h5]))

theorem Inv.step_of_meets (h : s.Inv denoted) (call : InternCall) (hmeets : call.meets denoted) :
    ∃ s', s.step call = some (s', (call.apply denoted).2) ∧ s'.Inv (call.apply denoted).1 := by
  obtain ⟨pieces, hpieces, hle, hne⟩ := hmeets
  obtain ⟨t', r, chains', hcall, htable, hext, hvalid, hbytes⟩ :=
    ((h.call call).1 pieces hpieces).good hle hne
  unfold step InternCall.apply
  rw [hcall, hpieces]
  refine ⟨_, rfl, ⟨chains', htable⟩, fun r' hr' => ?_, fun r' hr' => ?_, ?_⟩
  · cases List.mem_append.1 hr' with
    | inl hold => exact ((h.valid r' hold).extend hext).1
    | inr hnew =>
      rw [List.mem_singleton.1 hnew]
      exact hvalid
  · cases List.mem_append.1 hr' with
    | inl hold => exact h.len r' hold
    | inr hnew =>
      rw [List.mem_singleton.1 hnew, ← hvalid.length, hbytes]
      exact hle
  · dsimp only
    rw [List.map_append, List.map_singleton, hbytes,
      List.map_congr_left fun r' hr' => ((h.valid r' hr').extend hext).2, h.denoted_eq]
    rfl

theorem mem_of_noExit {call : InternCall} (hexit : call.noExit) {pieces : List (List ILUInt8)}
    (hpieces : call.pieces denoted = some pieces) : ∃ piece ∈ pieces, piece ∈ denoted := by
  cases call with
  | concat4 str1 str2 str3 str4 =>
    obtain ⟨piece, hpiece, hpieces⟩ := Option.bind_eq_some_iff.1 hpieces
    obtain ⟨_, _, hpieces⟩ := Option.bind_eq_some_iff.1 hpieces
    obtain ⟨_, _, hpieces⟩ := Option.bind_eq_some_iff.1 hpieces
    obtain ⟨_, _, hpieces⟩ := Option.bind_eq_some_iff.1 hpieces
    cases hpieces
    exact ⟨piece, List.mem_cons_self .., List.mem_of_getElem? hpiece⟩
  | concat5 str1 str2 str3 str4 str5 =>
    obtain ⟨piece, hpiece, hpieces⟩ := Option.bind_eq_some_iff.1 hpieces
    obtain ⟨_, _, hpieces⟩ := Option.bind_eq_some_iff.1 hpieces
    obtain ⟨_, _, hpieces⟩ := Option.bind_eq_some_iff.1 hpieces
    obtain ⟨_, _, hpieces⟩ := Option.bind_eq_some_iff.1 hpieces
    obtain ⟨_, _, hpieces⟩ := Option.bind_eq_some_iff.1 hpieces
    cases hpieces
    exact ⟨piece, List.mem_cons_self .., List.mem_of_getElem? hpiece⟩
  | internString str len => exact hexit.elim
  | appended str1 str2 => exact hexit.elim
  | concat3 str1 str2 str3 => exact hexit.elim

/-- The pieces of a `Concat4` or `Concat5` of nothing include the empty string. -/
theorem Inv.not_canonical (h : s.Inv denoted) {call : InternCall} (hexit : call.noExit)
    {pieces : List (List ILUInt8)} (hpieces : call.pieces denoted = some pieces)
    (hempty : pieces.flatten = []) {s' : InternState} (hstep : s.step call = some (s', ())) :
    ¬ s'.Canonical := by
  obtain ⟨t', id, hcall, hext, hbytes⟩ := ((h.call call).1 pieces hpieces).duplicate hexit hempty
  obtain ⟨piece, hpiece, hdenoted⟩ := mem_of_noExit hexit hpieces
  rw [List.flatten_eq_nil_iff.1 hempty piece hpiece, ← h.denoted_eq] at hdenoted
  obtain ⟨r, hr, hnil⟩ := List.mem_map.1 hdenoted
  obtain ⟨chains, htable⟩ := h.table
  have hr_empty := htable.eq_emptyResult (h.valid r hr) hnil
  subst hr_empty
  unfold step at hstep
  rw [hcall] at hstep
  cases hstep
  intro hcanonical
  have hsame := (hcanonical emptyResult (List.mem_append_left _ hr) ⟨.entry id, 0⟩
    (List.mem_append_right _ (List.mem_singleton_self _))).2 ⟨rfl, hbytes.symm⟩
  cases hsame

theorem Inv.step_of_not_meets (h : s.Inv denoted) (call : InternCall)
    (hmeets : ¬ call.meets denoted) (s' : InternState)
    (hstep : s.step call = some (s', (call.apply denoted).2)) :
    ¬ s'.Is (call.apply denoted).1 := by
  intro his
  apply hmeets
  cases hpieces : call.pieces denoted with
  | none =>
    unfold step at hstep
    rw [(h.call call).2 hpieces] at hstep
    cases hstep
  | some pieces =>
    refine ⟨pieces, hpieces, ?_, fun hexit hempty => ?_⟩
    · by_contra hlong
      unfold step at hstep
      rw [((h.call call).1 pieces hpieces).long hlong] at hstep
      cases hstep
    · exact h.not_canonical hexit hpieces hempty hstep his.2

end InternState

/-- Over any calls, the results stand for what they should and are one pointer for one byte
string, exactly as long as the calls are defined and no `Concat4` or `Concat5` is of empty
strings only. -/
theorem intern_canonical_iff (calls : List InternCall) :
    Agrees InternState.step InternCall.apply InternState.Is .init [] calls ↔
      MeetsAll InternCall.apply (fun denoted call => call.meets denoted) [] calls := by
  refine agrees_iff_meetsAll ?_ ?_ ?_ InternState.inv_init calls
  · exact fun _ _ h => h.is
  · exact fun _ _ call h => h.step_of_meets call
  · exact fun _ _ call h => h.step_of_not_meets call

/-- The empty string, and four of it. -/
theorem intern_not_canonical :
    ¬ Agrees InternState.step InternCall.apply InternState.Is .init []
      [.internString none 0, .concat4 0 0 0 0] := by
  intro h
  obtain ⟨s₁, hstep₁, _, s₂, hstep₂, his, _⟩ := h
  cases hstep₁
  cases hstep₂
  have hsame := (his.2 emptyResult (by decide) ⟨.entry 0, 0⟩ (by decide)).2 ⟨rfl, rfl⟩
  cases hsame

end Pnet.Support
