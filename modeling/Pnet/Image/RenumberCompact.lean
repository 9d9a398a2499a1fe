import Pnet.Image.RenumberSort

/-! The run of `_ILCompactReferences` on one table: the rows that stay move to the front in order,
and their items get the tokens of their new rows. -/
namespace Pnet.Image.Renumber

variable {I : Type}

namespace ILImage

variable {orig image : ILImage I} {table : Table} {token : Nat}

/-- The items of a table of references that are still references. -/
def survivors (image : ILImage I) (table : Table) : List I :=
  (image.rows table).filter fun item => image.isKind item table

/-- Those among the first `token` rows. -/
def kept (image : ILImage I) (table : Table) (token : Nat) : List I :=
  ((image.tokenData table).take token).reduceOption.filter fun item => image.isKind item table

theorem kept_succ (image : ILImage I) (table : Table) (token : Nat) :
    image.kept table (token + 1) = image.kept table token ++
      ((image.tokenData table)[token]?).join.toList.filter fun item => image.isKind item table := by
  rw [kept, kept, List.take_succ, List.reduceOption_append, List.filter_append]
  congr 2
  rcases (image.tokenData table)[token]? with _ | _ | item <;> rfl

theorem length_kept_le (image : ILImage I) (table : Table) (token : Nat) :
    (image.kept table token).length ≤ token :=
  calc (image.kept table token).length
      ≤ ((image.tokenData table).take token).reduceOption.length := List.length_filter_le ..
    _ ≤ ((image.tokenData table).take token).length := List.reduceOption_length_le _
    _ ≤ token := List.length_take_le ..

theorem mem_kept {item : I} (h : item ∈ image.kept table token) :
    image.isKind item table ∧ ∃ n < token, (image.tokenData table)[n]? = some (some item) := by
  obtain ⟨hmem, hkind⟩ := List.mem_filter.mp h
  rw [List.reduceOption_mem_iff] at hmem
  obtain ⟨n, hn⟩ := List.mem_iff_getElem?.mp hmem
  refine ⟨hkind, n, ?_⟩
  by_cases hlt : n < token
  · rw [List.getElem?_take_of_lt hlt] at hn
    exact ⟨hlt, hn⟩
  · rw [List.getElem?_eq_none (by rw [List.length_take]; omega)] at hn
    cases hn

/-- The tokens of `items` are those of the first rows of the table, and nothing else changes but the
rows of the table. -/
structure Moved (orig : ILImage I) (table : Table) (items : List I) (image : ILImage I) : Prop where
  token : ∀ {n : Nat} {item : I}, items[n]? = some item → image.token item = table.row (n + 1)
  frame : ∀ {item : I}, item ∉ items → image.token item = orig.token item
  data : ∀ {other : Table}, other ≠ table → image.tokenData other = orig.tokenData other
  members : image.members = orig.members
  parameters : image.parameters = orig.parameters
  propertyMaps : image.propertyMaps = orig.propertyMaps
  eventMaps : image.eventMaps = orig.eventMaps

/-- Every item keeps the table of its token. -/
theorem Moved.isKind {items : List I} (h : Moved orig table items image)
    (hlength : items.length < 2 ^ 24) (hkind : ∀ item ∈ items, orig.isKind item table) (item : I)
    (other : Table) : image.isKind item other = orig.isKind item other := by
  by_cases hitem : item ∈ items
  · obtain ⟨n, hn⟩ := List.mem_iff_getElem?.mp hitem
    have hlt : n < items.length := (List.getElem?_eq_some_iff.mp hn).1
    have himage : image.isKind item table := isKind_of_token (by omega) (h.token hn)
    apply Bool.eq_iff_iff.mpr
    constructor
    · intro hother
      rw [eq_of_isKind hother himage]
      exact hkind item hitem
    · intro hother
      rw [eq_of_isKind hother (hkind item hitem)]
      exact himage
  · rw [ILImage.isKind, ILImage.isKind, h.frame hitem]

section Compact

variable [DecidableEq I] (hlength : (orig.tokenData table).length < 2 ^ 24)
  (hunique : ∀ {m n : Nat} {item : I}, (orig.tokenData table)[m]? = some (some item) →
    (orig.tokenData table)[n]? = some (some item) → m = n)
include hlength hunique

theorem moved_compactFrom {left : Nat} (hleft : token + left = (orig.tokenData table).length)
    (h : Moved orig table (orig.kept table token) image)
    (hdata : image.tokenData table = (orig.kept table token).map some ++
      (orig.tokenData table).drop (orig.kept table token).length) :
    Moved orig table (orig.survivors table)
        (compactFrom table left token (orig.kept table token).length image) ∧
      (compactFrom table left token (orig.kept table token).length image).tokenData table =
        (orig.survivors table).map some := by
  have hle := orig.length_kept_le table token
  induction left generalizing token image with
  | zero =>
    obtain rfl : token = (orig.tokenData table).length := hleft
    have hall : orig.kept table (orig.tokenData table).length = orig.survivors table := by
      rw [kept, List.take_length]
      rfl
    rw [hall] at h hdata ⊢
    refine ⟨⟨h.token, h.frame, ?_, h.members, h.parameters, h.propertyMaps, h.eventMaps⟩, ?_⟩
    · intro other hother
      simp only [compactFrom, Function.update_of_ne hother]
      exact h.data hother
    · simp only [compactFrom, Function.update_self]
      rw [hdata, List.take_append_of_le_length (by simp), List.take_of_length_le (by simp)]
  | succ left ih =>
    have hlt : token < (orig.tokenData table).length := by omega
    have hread : (image.tokenData table)[token]? = (orig.tokenData table)[token]? := by
      rw [hdata, List.getElem?_append_right (by rwa [List.length_map]), List.length_map,
        List.getElem?_drop, Nat.add_sub_cancel' hle]
    have hkept := orig.kept_succ table token
    have hle' := orig.length_kept_le table (token + 1)
    rw [compactFrom, hread]
    cases hrow : ((orig.tokenData table)[token]?).join with
    | none =>
      rw [hrow] at hkept
      have hsame : orig.kept table (token + 1) = orig.kept table token := by simpa using hkept
      rw [← hsame] at h hdata ⊢
      exact ih (by omega) h hdata hle'
    | some item =>
      rw [hrow] at hkept
      have hitem : (orig.tokenData table)[token]? = some (some item) := by
        rcases hcase : (orig.tokenData table)[token]? with _ | _ | other <;> simp_all
      have hkind : image.isKind item table = orig.isKind item table :=
        h.isKind (by omega) (fun _ hmem => (mem_kept hmem).1) item table
      by_cases hstays : orig.isKind item table
      · -- The item moves to the first row that is free.
        have hsame : orig.kept table (token + 1) = orig.kept table token ++ [item] := by
          simpa [hstays] using hkept
        have hlen : (orig.kept table (token + 1)).length = (orig.kept table token).length + 1 := by
          rw [hsame, List.length_append, List.length_singleton]
        have hnew : item ∉ orig.kept table token := by
          intro hmem
          obtain ⟨-, n, hn, hrow'⟩ := mem_kept hmem
          have := hunique hrow' hitem
          omega
        simp only [hkind, hstays, if_true]
        rw [← hlen]
        apply ih (by omega) ?_ ?_ hle'
        · refine ⟨?_, ?_, ?_, h.members, h.parameters, h.propertyMaps, h.eventMaps⟩
          · intro n old hold
            rw [hsame] at hold
            by_cases hn : n < (orig.kept table token).length
            · rw [List.getElem?_append_left hn] at hold
              have hne : old ≠ item := by
                rintro rfl
                exact hnew (List.mem_of_getElem? hold)
              simp only [Function.update_of_ne hne]
              exact h.token hold
            · have hlast := (List.getElem?_eq_some_iff.mp hold).1
              rw [List.length_append, List.length_singleton] at hlast
              obtain rfl : n = (orig.kept table token).length := by omega
              rw [List.getElem?_concat_length] at hold
              cases hold
              simp only [Function.update_self]
              rw [hlen]
              rfl
          · intro old hold
            rw [hsame, List.mem_append, List.mem_singleton, not_or] at hold
            simp only [Function.update_of_ne hold.2]
            exact h.frame hold.1
          · intro other hother
            simp only [Function.update_of_ne hother]
            exact h.data hother
        · simp only [Function.update_self]
          rw [hdata, List.set_append_right _ _ (by simp), List.length_map, Nat.sub_self,
            List.drop_eq_getElem_cons (by omega), List.set_cons_zero, hsame, List.map_append,
            List.append_assoc, List.length_append, List.length_singleton]
          rfl
      · have hsame : orig.kept table (token + 1) = orig.kept table token := by
          simpa [hstays] using hkept
        simp only [hkind, hstays]
        rw [← hsame] at h hdata ⊢
        exact ih (by omega) h hdata hle'

/-- The whole table. -/
theorem moved_compactTable : Moved orig table (orig.survivors table) (orig.compactTable table) ∧
    (orig.compactTable table).tokenData table = (orig.survivors table).map some := by
  have hnone : orig.kept table 0 = [] := by
    rw [kept, List.take_zero]
    rfl
  have hrun := @moved_compactFrom I orig orig table 0 _ hlength hunique _ (Nat.zero_add _)
    (by rw [hnone]; exact ⟨by simp, fun _ => rfl, fun _ => rfl, rfl, rfl, rfl, rfl⟩)
    (by rw [hnone]; rfl)
  rwa [hnone] at hrun

end Compact

end ILImage

end Pnet.Image.Renumber
