import Pnet.Support.HashTabSound

/-! Iteration over a hash table, and runs of its operations against a multiset. -/
namespace Pnet.Support
open Pnet.Lib

variable {α κ : Type}

namespace ILHashTable

variable {computeFunc : α → Nat} {t : ILHashTable α} {chains : Nat → List EntryRef}

/-! ### Iteration -/

/-- An iterator that has `cells` of the current bucket to go, and the buckets from `hash`. -/
structure IterAt (t : ILHashTable α) (iter : ILHashIter) (cells : List EntryRef) (hash : Nat) :
    Prop where
  chain : Chain t.next iter.entry cells
  length_le : cells.length ≤ t.numEntries
  index : iter.index + 1 = hash
  hash_le : hash ≤ t.size

def elemsFrom (t : ILHashTable α) (hash : Nat) : List α :=
  (List.range' hash (t.size - hash)).flatMap t.bucketElems

def remaining (t : ILHashTable α) (cells : List EntryRef) (hash : Nat) : List α :=
  t.elemsOf cells ++ t.elemsFrom hash

theorem elemsFrom_zero : t.elemsFrom 0 = t.elems := by
  unfold elemsFrom elems
  rw [List.range_eq_range', Nat.sub_zero]

theorem elemsFrom_size : t.elemsFrom t.size = [] := by
  unfold elemsFrom
  rw [Nat.sub_self]
  rfl

theorem elemsFrom_succ {hash : Nat} (hhash : hash < t.size) :
    t.elemsFrom hash = t.bucketElems hash ++ t.elemsFrom (hash + 1) := by
  unfold elemsFrom
  have hsub : t.size - hash = t.size - (hash + 1) + 1 := by omega
  rw [hsub, List.range'_succ, List.flatMap_cons]

theorem elemsOf_eq_nil {cells : List EntryRef}
    (h : cells.find? (fun r => (t.entry r).elem.any fun _ => true) = none) :
    t.elemsOf cells = [] := by
  unfold elemsOf
  rw [List.filterMap_eq_nil_iff]
  intro r hr
  have htest := List.find?_eq_none.1 h r hr
  cases helem : (t.entry r).elem with
  | none => rfl
  | some elem =>
    rw [helem] at htest
    exact absurd rfl htest

/-- The first live cell of a chain, and the cells after it. -/
theorem elemsOf_eq_cons {start : Option EntryRef} {cells : List EntryRef} {r : EntryRef}
    (hchain : Chain t.next start cells)
    (h : cells.find? (fun r => (t.entry r).elem.any fun _ => true) = some r) :
    ∃ elem post, (t.entry r).elem = some elem ∧ Chain t.next (t.next r) post ∧
      post.length ≤ cells.length ∧ t.elemsOf cells = elem :: t.elemsOf post := by
  induction hchain with
  | nil => cases h
  | @cons r' cells hchain ih =>
    rw [List.find?_cons] at h
    rw [elemsOf_cons]
    cases helem : (t.entry r').elem with
    | none =>
      rw [helem] at h
      obtain ⟨elem, post, hre, hpost, hlength, heq⟩ := ih h
      exact ⟨elem, post, hre, hpost, Nat.le_succ_of_le hlength, heq⟩
    | some elem =>
      rw [helem] at h
      cases h
      exact ⟨elem, cells, helem, hchain, Nat.le_succ _, rfl⟩

/-- The rounds that `ILHashIterNext` may need. -/
def roundsFrom (t : ILHashTable α) (iter : ILHashIter) (hash : Nat) : Nat :=
  t.size - hash + if iter.entry = none then 1 else 2

/-- The result of `ILHashIterNext` when these elements remain. -/
def IterNext (t : ILHashTable α) (left : List α) (result : Option (Option α × ILHashIter)) :
    Prop :=
  match left with
  | [] => ∃ iter, result = some (none, iter)
  | elem :: left => ∃ iter cells hash, result = some (some elem, iter) ∧ t.IterAt iter cells hash ∧
      left = t.remaining cells hash

/-- A search along a chain, and what `ILHashIterNext` does after it. -/
theorem iterNext_search {iter : ILHashIter} {cells : List EntryRef} {hash : Nat}
    (hat : t.IterAt iter cells hash) {again : Option (Option α × ILHashIter)}
    (hagain : t.IterNext (t.elemsFrom hash) again) :
    t.IterNext (t.remaining cells hash)
      (match t.seekElem (fun _ => true) iter.entry with
      | some (some r) => some ((t.entry r).elem, ⟨iter.index, t.next r⟩)
      | some none => again
      | none => none) := by
  have hseek : t.seekElem (fun _ => true) iter.entry = _ := hat.chain.seek _ hat.length_le
  rw [hseek]
  unfold remaining
  cases hfind : cells.find? (fun r => (t.entry r).elem.any fun _ => true) with
  | none =>
    rw [elemsOf_eq_nil hfind]
    exact hagain
  | some r =>
    obtain ⟨elem, post, hre, hpost, hlength, heq⟩ := elemsOf_eq_cons hat.chain hfind
    rw [heq]
    refine ⟨⟨iter.index, t.next r⟩, post, hash, congrArg (fun e => some (e, _)) hre, ?_, rfl⟩
    exact ⟨hpost, hlength.trans hat.length_le, hat.index, hat.hash_le⟩

theorem Inv.iterNext (h : t.Inv computeFunc chains) {iter : ILHashIter} {cells : List EntryRef}
    {hash rounds : Nat} (hat : t.IterAt iter cells hash)
    (hrounds : t.roundsFrom iter hash ≤ rounds) :
    t.IterNext (t.remaining cells hash) (ilHashIterNext t rounds iter) := by
  induction rounds generalizing iter cells hash with
  | zero =>
    unfold roundsFrom at hrounds
    split at hrounds <;> omega
  | succ rounds ih =>
    have hagain : ∀ (index : Int) (hash : Nat), index + 1 = hash → hash ≤ t.size →
        t.size - hash + 1 ≤ rounds →
        t.IterNext (t.elemsFrom hash) (ilHashIterNext t rounds ⟨index, none⟩) := by
      intro index hash hindex hle hrounds
      have hat : t.IterAt ⟨index, none⟩ [] hash := ⟨.nil, Nat.zero_le _, hindex, hle⟩
      exact ih hat hrounds
    unfold ilHashIterNext
    unfold roundsFrom at hrounds
    by_cases hnone : iter.entry = none
    · have hcells : cells = [] := (hnone ▸ hat.chain).unique .nil
      subst hcells
      simp only [if_pos hnone] at hrounds ⊢
      by_cases hend : hash < t.size
      · have hindex : ¬ (iter.entry = none ∧ (t.size : Int) ≤ iter.index + 1) := by
          rw [hat.index]
          omega
        have hbucket : (iter.index + 1).toNat = hash := by
          rw [hat.index]
          rfl
        have hindex' : iter.index + 1 + 1 = ((hash + 1 : Nat) : Int) := by
          rw [hat.index]
          rfl
        have hat' : t.IterAt ⟨iter.index + 1, some (.table hash)⟩ _ (hash + 1) :=
          ⟨h.chain hash hend, h.length_le hend, hindex', hend⟩
        rw [if_neg hindex, hbucket]
        unfold remaining
        rw [elemsFrom_succ hend, h.bucketElems hend]
        exact iterNext_search hat' (hagain (iter.index + 1) (hash + 1) hindex' hend (by omega))
      · have hindex : iter.entry = none ∧ (t.size : Int) ≤ iter.index + 1 := by
          rw [hat.index]
          exact ⟨hnone, by omega⟩
        have hsize : hash = t.size := Nat.le_antisymm hat.hash_le (Nat.le_of_not_lt hend)
        rw [if_pos hindex]
        unfold remaining
        rw [hsize, elemsFrom_size]
        exact ⟨_, rfl⟩
    · have hindex : ¬ (iter.entry = none ∧ (t.size : Int) ≤ iter.index) := fun hand => hnone hand.1
      simp only [if_neg hnone, if_neg hindex] at hrounds ⊢
      exact iterNext_search hat (hagain iter.index hash hat.index hat.hash_le (by omega))

theorem Inv.iterAll (h : t.Inv computeFunc chains) {iter : ILHashIter} {cells : List EntryRef}
    {hash calls : Nat} (hat : t.IterAt iter cells hash)
    (hcalls : (t.remaining cells hash).length < calls) :
    ilHashIterAll t calls iter = some (t.remaining cells hash) := by
  generalize hleft : t.remaining cells hash = left at hcalls ⊢
  induction calls generalizing iter cells hash left with
  | zero => cases hcalls
  | succ calls ih =>
    have hrounds : t.roundsFrom iter hash ≤ t.size + 2 := by
      unfold roundsFrom
      split <;> omega
    have hnext := h.iterNext hat hrounds
    rw [hleft] at hnext
    unfold ilHashIterAll
    cases left with
    | nil =>
      obtain ⟨iter', hresult⟩ := hnext
      rw [hresult]
    | cons elem left =>
      obtain ⟨iter', cells', hash', hresult, hat', heq⟩ := hnext
      rw [hresult]
      have hrest := ih hat' left heq.symm (Nat.lt_of_succ_lt_succ hcalls)
      exact congrArg (Option.map (elem :: ·)) hrest

theorem iterAt_init (t : ILHashTable α) : t.IterAt ilHashIterInit [] 0 :=
  ⟨.nil, Nat.zero_le _, rfl, Nat.zero_le _⟩

/-- An iteration gives the elements of the table, each as often as it is in there. -/
theorem Inv.iterAll_init (h : t.Inv computeFunc chains) :
    ilHashIterAll t (t.contents.card + 1) ilHashIterInit = some t.elems := by
  have hremaining : t.remaining [] 0 = t.elems := elemsFrom_zero
  have hcalls : (t.remaining [] 0).length < t.contents.card + 1 := by
    rw [hremaining]
    exact Nat.lt_succ_self _
  have hall := h.iterAll (iterAt_init t) hcalls
  rwa [hremaining] at hall

end ILHashTable

/-! ### Runs -/

inductive HashOp (α κ : Type) where
  | add (elem : α)
  | remove (elem : α)
  | removeSubset (matchFunc : α → κ → Bool) (key : κ)

namespace HashOp

variable [DecidableEq α]

def run (computeFunc : α → Nat) (t : ILHashTable α) : HashOp α κ → Option (ILHashTable α)
  | add elem => some (ilHashAdd computeFunc t elem)
  | remove elem => ilHashRemove computeFunc t elem
  | removeSubset matchFunc key => ilHashRemoveSubset t matchFunc key

def runAll (computeFunc : α → Nat) : ILHashTable α → List (HashOp α κ) → Option (ILHashTable α)
  | t, [] => some t
  | t, op :: ops => (op.run computeFunc t).bind fun t => runAll computeFunc t ops

/-- The same on a multiset. -/
def apply (s : Multiset α) : HashOp α κ → Multiset α
  | add elem => elem ::ₘ s
  | remove elem => s.erase elem
  | removeSubset matchFunc key => s.filter fun elem => ¬ matchFunc elem key = true

def applyAll (ops : List (HashOp α κ)) : Multiset α := ops.foldl apply 0

variable {computeFunc : α → Nat} {t : ILHashTable α} {chains : Nat → List EntryRef}

theorem run_spec (h : t.Inv computeFunc chains) (op : HashOp α κ) :
    ∃ t' chains', op.run computeFunc t = some t' ∧ t'.Inv computeFunc chains' ∧
      t'.contents = op.apply t.contents := by
  cases op with
  | add elem =>
    obtain ⟨chains', h', hcontents⟩ := h.add elem
    exact ⟨_, chains', rfl, h', hcontents⟩
  | remove elem =>
    obtain ⟨t', hrun, h', hcontents⟩ := h.remove elem
    exact ⟨t', chains, hrun, h', hcontents⟩
  | removeSubset matchFunc key =>
    obtain ⟨t', hrun, h', hcontents⟩ := h.removeSubset matchFunc key
    exact ⟨t', chains, hrun, h', hcontents⟩

theorem runAll_spec (h : t.Inv computeFunc chains) (ops : List (HashOp α κ)) :
    ∃ t' chains', runAll computeFunc t ops = some t' ∧ t'.Inv computeFunc chains' ∧
      t'.contents = ops.foldl apply t.contents := by
  induction ops generalizing t chains with
  | nil => exact ⟨t, chains, rfl, h, rfl⟩
  | cons op ops ih =>
    obtain ⟨t₁, chains₁, hrun₁, h₁, hcontents₁⟩ := op.run_spec h
    obtain ⟨t', chains', hrun, h', hcontents⟩ := ih h₁
    refine ⟨t', chains', ?_, h', ?_⟩
    · unfold runAll
      rw [hrun₁]
      exact hrun
    · rw [hcontents, hcontents₁]
      rfl

end HashOp

/-- A hash table is a multiset, whatever is added to it and removed from it. -/
theorem ilHashTable_refines [DecidableEq α] (computeFunc : α → Nat) (keyComputeFunc : κ → Nat)
    (matchFunc : α → κ → Bool)
    (hhashes : ∀ elem key, matchFunc elem key = true → computeFunc elem = keyComputeFunc key)
    (size : Nat) (ops : List (HashOp α κ)) :
    ∃ t, HashOp.runAll computeFunc (ilHashCreate α size) ops = some t ∧
      t.contents = HashOp.applyAll ops ∧
      (∀ key, ∃ found, ilHashFindAlt t key keyComputeFunc matchFunc = some found ∧
        (∀ elem, found = some elem → elem ∈ HashOp.applyAll ops ∧ matchFunc elem key = true) ∧
        (found = none ↔ ∀ elem ∈ HashOp.applyAll ops, ¬ matchFunc elem key = true)) ∧
      ∃ visited, ilHashIterAll t ((HashOp.applyAll ops).card + 1) ilHashIterInit = some visited ∧
        visited = HashOp.applyAll ops := by
  have hcreate : (ilHashCreate α size).Inv computeFunc fun _ => [] := ILHashTable.inv_create size
  obtain ⟨t, chains, hrun, h, hcontents⟩ := HashOp.runAll_spec hcreate ops
  rw [ILHashTable.contents_create] at hcontents
  refine ⟨t, hrun, hcontents, ?_, t.elems, ?_, hcontents⟩
  · intro key
    obtain ⟨found, hfind, hsome, hnone⟩ :=
      h.find key keyComputeFunc matchFunc fun elem _ => hhashes elem key
    rw [hcontents] at hsome hnone
    refine ⟨found, hfind, hsome, hnone, fun hno => ?_⟩
    cases found with
    | none => rfl
    | some elem =>
      obtain ⟨hmem, hmatch⟩ := hsome elem rfl
      exact absurd hmatch (hno elem hmem)
  · have hiter := h.iterAll_init
    rwa [hcontents] at hiter

/-- Numbers that are their own keys, all in one bucket. -/
theorem ilHashTable_refines_numbers :
    ∃ t, HashOp.runAll (fun _ => 0) (ilHashCreate Nat 1)
        ([.add 7, .add 8, .add 7, .remove 7] : List (HashOp Nat Nat)) = some t ∧
      t.contents = {8, 7} := by
  obtain ⟨t, hrun, hcontents, _⟩ := ilHashTable_refines (fun _ => 0) (fun _ => 0)
    (fun elem key : Nat => decide (elem = key)) (fun _ _ _ => rfl) 1
    [.add 7, .add 8, .add 7, .remove 7]
  exact ⟨t, hrun, hcontents.trans (by decide)⟩

end Pnet.Support
