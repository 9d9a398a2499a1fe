import Mathlib.Data.List.Infix

/-! The occurrences of one list in another that a scan from left to right finds, none of which
overlap, and what the list becomes when they are replaced. -/
namespace Pnet.Lib.Replace

variable {α : Type} [DecidableEq α] (old new : List α)

/-- The places of the occurrences in a list that starts at place `posn`; its first `skip` items
belong to an occurrence before it. -/
def occurrencesFrom : Nat → Nat → List α → List Nat
  | _, _, [] => []
  | posn, skip + 1, _ :: rest => occurrencesFrom (posn + 1) skip rest
  | posn, 0, c :: rest =>
    if old <+: c :: rest then posn :: occurrencesFrom (posn + 1) (old.length - 1) rest
    else occurrencesFrom (posn + 1) 0 rest

def replaceFrom : Nat → List α → List α
  | _, [] => []
  | skip + 1, _ :: rest => replaceFrom skip rest
  | 0, c :: rest =>
    if old <+: c :: rest then new ++ replaceFrom (old.length - 1) rest else c :: replaceFrom 0 rest

/-- The length of what is replaced up to where no occurrence fits any more. -/
def countFrom : Nat → List α → Nat
  | _, [] => 0
  | skip + 1, _ :: rest => countFrom skip rest
  | 0, c :: rest =>
    if old <+: c :: rest then new.length + countFrom (old.length - 1) rest
    else if old.length ≤ (c :: rest).length then 1 + countFrom 0 rest
    else 0

def occurrences (posn : Nat) (s : List α) : List Nat := occurrencesFrom old posn 0 s

def replaceAll (s : List α) : List α := replaceFrom old new 0 s

def count (s : List α) : Nat := countFrom old new 0 s

variable {old} {c : α} {rest : List α} {posn : Nat}

theorem occurrencesFrom_skip (skip : Nat) (s : List α) :
    occurrencesFrom old posn skip s = occurrences old (posn + skip) (s.drop skip) := by
  induction s generalizing posn skip with
  | nil => cases skip <;> simp [occurrencesFrom, occurrences]
  | cons c s ih =>
    cases skip with
    | zero => rfl
    | succ skip =>
      rw [occurrencesFrom, ih, List.drop_succ_cons]
      congr 1
      omega

theorem replaceFrom_skip (skip : Nat) (s : List α) :
    replaceFrom old new skip s = replaceAll old new (s.drop skip) := by
  induction s generalizing skip with
  | nil => cases skip <;> simp [replaceFrom, replaceAll]
  | cons c s ih =>
    cases skip with
    | zero => rfl
    | succ skip => rw [replaceFrom, ih, List.drop_succ_cons]

theorem countFrom_skip (skip : Nat) (s : List α) :
    countFrom old new skip s = count old new (s.drop skip) := by
  induction s generalizing skip with
  | nil => cases skip <;> simp [countFrom, count]
  | cons c s ih =>
    cases skip with
    | zero => rfl
    | succ skip => rw [countFrom, ih, List.drop_succ_cons]

/-! ### An occurrence at the front -/

section Found

variable (hold : old ≠ []) (rest : List α)
include hold

omit [DecidableEq α] in
/-- What is left behind an occurrence. -/
theorem exists_cons_append : ∃ c tail, old ++ rest = c :: tail ∧ old <+: c :: tail ∧
    tail.drop (old.length - 1) = rest ∧ 1 + (old.length - 1) = old.length := by
  cases old with
  | nil => exact absurd rfl hold
  | cons c old =>
    refine ⟨c, old ++ rest, rfl, List.prefix_append (c :: old) rest, ?_, Nat.add_comm 1 _⟩
    rw [List.length_cons, Nat.add_sub_cancel, List.drop_left]

theorem occurrences_append (posn : Nat) :
    occurrences old posn (old ++ rest) = posn :: occurrences old (posn + old.length) rest := by
  obtain ⟨c, tail, heq, hstarts, hrest, hlength⟩ := exists_cons_append hold rest
  rw [heq, occurrences, occurrencesFrom, if_pos hstarts, occurrencesFrom_skip, hrest, Nat.add_assoc,
    hlength]

theorem replaceAll_append : replaceAll old new (old ++ rest) = new ++ replaceAll old new rest := by
  obtain ⟨c, tail, heq, hstarts, hrest, _⟩ := exists_cons_append hold rest
  rw [heq, replaceAll, replaceFrom, if_pos hstarts, replaceFrom_skip, hrest]

theorem count_append : count old new (old ++ rest) = new.length + count old new rest := by
  obtain ⟨c, tail, heq, hstarts, hrest, _⟩ := exists_cons_append hold rest
  rw [heq, count, countFrom, if_pos hstarts, countFrom_skip, hrest]

end Found

/-! ### No occurrence at the front -/

theorem occurrences_cons (h : ¬ old <+: c :: rest) :
    occurrences old posn (c :: rest) = occurrences old (posn + 1) rest := by
  rw [occurrences, occurrencesFrom, if_neg h]
  rfl

theorem replaceAll_cons (h : ¬ old <+: c :: rest) :
    replaceAll old new (c :: rest) = c :: replaceAll old new rest := by
  rw [replaceAll, replaceFrom, if_neg h]
  rfl

theorem count_cons (h : ¬ old <+: c :: rest) (hfits : old.length ≤ (c :: rest).length) :
    count old new (c :: rest) = 1 + count old new rest := by
  rw [count, countFrom, if_neg h, if_pos hfits]
  rfl

omit [DecidableEq α] in
theorem not_prefix_of_short {s : List α} (h : s.length < old.length) : ¬ old <+: s :=
  fun hstarts => absurd hstarts.length_le (Nat.not_le.mpr h)

/-- Where an occurrence does not fit, nothing is replaced. -/
theorem short {s : List α} (h : s.length < old.length) (posn : Nat) :
    occurrences old posn s = [] ∧ replaceAll old new s = s ∧ count old new s = 0 := by
  induction s generalizing posn with
  | nil => exact ⟨rfl, rfl, rfl⟩
  | cons c s ih =>
    have hstarts : ¬ old <+: c :: s := not_prefix_of_short h
    obtain ⟨hoccurrences, hreplace, _⟩ := ih ((Nat.lt_succ_self _).trans h) (posn + 1)
    rw [occurrences_cons hstarts, replaceAll_cons new hstarts, hoccurrences, hreplace, count,
      countFrom, if_neg hstarts, if_neg (Nat.not_le.mpr h)]
    exact ⟨rfl, rfl, rfl⟩

omit [DecidableEq α] in
/-- Induction along a scan. -/
theorem scan_induction (hold : old ≠ []) {P : List α → Prop} (nil : P [])
    (found : ∀ rest, P rest → P (old ++ rest))
    (keep : ∀ c rest, ¬ old <+: c :: rest → P rest → P (c :: rest)) (s : List α) : P s := by
  induction h : s.length using Nat.strongRecOn generalizing s with
  | ind n ih =>
    subst h
    have hpos := List.length_pos_iff.mpr hold
    cases s with
    | nil => exact nil
    | cons c rest =>
      by_cases hstarts : old <+: c :: rest
      · obtain ⟨tail, htail⟩ := hstarts
        rw [← htail]
        refine found tail (ih tail.length ?_ tail rfl)
        rw [← htail, List.length_append]
        omega
      · exact keep c rest hstarts (ih rest.length (Nat.lt_succ_self _) rest rfl)

end Pnet.Lib.Replace
