import Mathlib.Data.List.Basic

/-! A scan of a list that may grow at its end while it is scanned, as an array does when items are
added behind an index that runs through it. -/
namespace Pnet.Lib.Worklist

variable {α β : Type*}

/-- What becomes of an item when there are so many in all, and the item that is added. -/
abbrev Visit (α : Type*) := Nat → α → α × Option α

/-- At most so many items of `todo` are visited. -/
def scan (visit : Visit α) : Nat → List α → List α → List α
  | 0, done, todo => done ++ todo
  | _ + 1, done, [] => done
  | steps + 1, done, item :: todo =>
    let result := visit (done.length + (item :: todo).length) item
    scan visit steps (done ++ [result.1]) (todo ++ result.2.toList)

/-- The items that are visited, each with the number there is then. -/
def visited (visit : Visit α) : Nat → List α → List α → List (Nat × α)
  | 0, _, _ => []
  | _ + 1, _, [] => []
  | steps + 1, done, item :: todo =>
    let count := done.length + (item :: todo).length
    let result := visit count item
    (count, item) :: visited visit steps (done ++ [result.1]) (todo ++ result.2.toList)

/-- The points of the items of a list. -/
def Covers (Inside : α → β → Prop) (list : List α) (point : β) : Prop :=
  ∃ item ∈ list, Inside item point

section Covers

variable {Inside : α → β → Prop} {point : β}

theorem covers_append {list list' : List α} :
    Covers Inside (list ++ list') point ↔ Covers Inside list point ∨ Covers Inside list' point := by
  simp [Covers, or_and_right, exists_or]

theorem covers_cons {item : α} {list : List α} :
    Covers Inside (item :: list) point ↔ Inside item point ∨ Covers Inside list point := by
  simp [Covers]

theorem covers_nil : ¬ Covers Inside [] point := by
  simp [Covers]

/-- The visit takes the points of `Out` from the item, and leaves the others in it or in the item it
adds. -/
structure Removes (Inside : α → β → Prop) (Out : β → Prop) (item : α) (result : α × Option α) :
    Prop where
  out : ∀ {point : β}, Out point → ¬ Inside result.1 point
  kept : ∀ {point : β}, ¬ Out point →
    (Inside item point ↔ Covers Inside (result.1 :: result.2.toList) point)

variable {visit : Visit α} {limit steps : Nat} {done todo : List α}

theorem all_scan (P : α → Prop)
    (hvisit : ∀ {count : Nat} {item : α}, P item →
      P (visit count item).1 ∧ ∀ extra ∈ (visit count item).2, P extra)
    (hdone : ∀ item ∈ done, P item) (htodo : ∀ item ∈ todo, P item) :
    ∀ item ∈ scan visit steps done todo, P item := by
  induction steps generalizing done todo with
  | zero =>
    intro item hitem
    exact (List.mem_append.mp hitem).elim (hdone item) (htodo item)
  | succ steps ih =>
    cases todo with
    | nil => exact hdone
    | cons first todo =>
      obtain ⟨hfirst, hextra⟩ := @hvisit (done.length + (first :: todo).length) first
        (htodo first List.mem_cons_self)
      apply ih
      · intro item hitem
        rcases List.mem_append.mp hitem with hitem | hitem
        · exact hdone item hitem
        · rwa [List.mem_singleton.mp hitem]
      · intro item hitem
        rcases List.mem_append.mp hitem with hitem | hitem
        · exact htodo item (List.mem_cons_of_mem _ hitem)
        · exact hextra item (Option.mem_toList.mp hitem)

/-- When no more than `limit` items are ever there, the scan visits them all. -/
theorem length_scan_le
    (hlimit : ∀ {count : Nat} {item : α}, (visit count item).2.isSome → count < limit)
    (hcount : done.length + todo.length ≤ limit) :
    (scan visit steps done todo).length ≤ limit := by
  induction steps generalizing done todo with
  | zero => rwa [scan, List.length_append]
  | succ steps ih =>
    cases todo with
    | nil => simpa [scan] using hcount
    | cons first todo =>
      apply ih
      rw [List.length_append, List.length_append, List.length_singleton]
      rw [List.length_cons] at hcount
      cases hresult : (visit (done.length + (first :: todo).length) first).2 with
      | none =>
        rw [Option.toList_none, List.length_nil]
        omega
      | some extra =>
        have hlt := @hlimit _ first (by rw [hresult]; rfl)
        rw [List.length_cons] at hlt
        rw [Option.toList_some, List.length_singleton]
        omega

/-- The scan takes the points from the whole list. -/
theorem covers_scan {Out : β → Prop}
    (hlimit : ∀ {count : Nat} {item : α}, (visit count item).2.isSome → count < limit)
    (hremoves : ∀ visit' ∈ visited visit steps done todo,
      Removes Inside Out visit'.2 (visit visit'.1 visit'.2))
    (hcount : done.length + todo.length ≤ limit) (hsteps : done.length + steps = limit)
    (hdone : ∀ {point : β}, Out point → ¬ Covers Inside done point) (point : β) :
    Covers Inside (scan visit steps done todo) point ↔
      ¬ Out point ∧ Covers Inside (done ++ todo) point := by
  induction steps generalizing done todo with
  | zero =>
    obtain rfl : todo = [] := List.eq_nil_of_length_eq_zero (by omega)
    rw [scan, List.append_nil]
    constructor
    · intro hcovers
      exact ⟨fun hout => hdone hout hcovers, hcovers⟩
    · intro hcovers
      exact hcovers.2
  | succ steps ih =>
    cases todo with
    | nil =>
      rw [scan, List.append_nil]
      constructor
      · intro hcovers
        exact ⟨fun hout => hdone hout hcovers, hcovers⟩
      · intro hcovers
        exact hcovers.2
    | cons first todo =>
      have hfirst : Removes Inside Out first (visit (done.length + (first :: todo).length) first) :=
        hremoves _ List.mem_cons_self
      have hnil : ¬ Covers Inside [] point := covers_nil
      have hlength := @length_scan_le _ visit limit 1 done (first :: todo) hlimit hcount
      simp only [scan] at hlength
      rw [scan, ih]
      · rw [covers_append, covers_append, covers_append, covers_append, covers_cons, covers_cons]
        constructor
        · rintro ⟨hout, hcovers⟩
          refine ⟨hout, ?_⟩
          have hkept := hfirst.kept hout
          rw [covers_cons] at hkept
          tauto
        · rintro ⟨hout, hcovers⟩
          refine ⟨hout, ?_⟩
          have hkept := hfirst.kept hout
          rw [covers_cons] at hkept
          tauto
      · intro visit' hvisit
        exact hremoves visit' (List.mem_cons_of_mem _ hvisit)
      · rwa [List.length_append] at hlength
      · rw [List.length_append, List.length_singleton]
        omega
      · intro point hout
        rw [covers_append, covers_cons, not_or, not_or]
        exact ⟨hdone hout, hfirst.out hout, covers_nil⟩

end Covers

end Pnet.Lib.Worklist
