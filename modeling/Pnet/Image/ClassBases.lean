import Mathlib.Data.List.Basic

/-! The classes and interfaces that a class inherits from, `image/class.c`, and
`CSIsBaseTypeFor` of `cscc/csharp/cs_lookup.c`. Classes are resolved ones. -/
namespace Pnet.Image

/-- The parents and the interfaces of classes. Nothing inherits from itself, as `rank`
shows, and interfaces have no parent. -/
structure ClassHierarchy (C : Type*) where
  parent : C → Option C
  implements : C → List C
  rank : C → Nat
  rank_parent : ∀ {info info2}, parent info = some info2 → rank info2 < rank info
  rank_implements : ∀ {info info2}, info2 ∈ implements info → rank info2 < rank info
  parent_interface : ∀ {info info2}, info2 ∈ implements info → parent info2 = none

namespace ClassHierarchy

variable {C : Type*} [DecidableEq C] (ch : ClassHierarchy C)

def ilClassInheritsFrom (info ancestor : C) : Bool :=
  if info = ancestor then true
  else
    match _hparent : ch.parent info with
    | none => false
    | some info => ilClassInheritsFrom info ancestor
termination_by ch.rank info
decreasing_by exact ch.rank_parent _hparent

def implementsResolved (info interface : C) : Bool :=
  ((ch.implements info).attach.any fun tempInterface =>
    tempInterface.1 = interface || implementsResolved tempInterface.1 interface) ||
  match _hparent : ch.parent info with
  | none => false
  | some info => implementsResolved info interface
termination_by ch.rank info
decreasing_by
  · exact ch.rank_implements tempInterface.2
  · exact ch.rank_parent _hparent

def ilClassImplements (info interface : C) : Bool :=
  info = interface || ch.implementsResolved info interface

/-- `info1` is a base of `info2`. -/
def csIsBaseTypeFor (info1 info2 : C) : Bool :=
  if info1 = info2 then false
  else if ch.ilClassInheritsFrom info2 info1 then true
  else ch.ilClassImplements info2 info1

variable {ch} {info info1 info2 info3 : C}

omit [DecidableEq C] in
/-- Induction from the bases of a class to the class. -/
theorem rank_induction {motive : C → Prop}
    (step : ∀ info, (∀ base, ch.rank base < ch.rank info → motive base) → motive info)
    (info : C) : motive info :=
  (measure ch.rank).wf.induction info step

theorem ilClassInheritsFrom_iff : ch.ilClassInheritsFrom info info2 = true ↔
    info = info2 ∨ ∃ parent, ch.parent info = some parent ∧
      ch.ilClassInheritsFrom parent info2 = true := by
  rw [ilClassInheritsFrom]
  by_cases heq : info = info2
  · simp [heq]
  · rw [if_neg heq]
    split
    · simp_all
    · simp_all

theorem implementsResolved_iff : ch.implementsResolved info info2 = true ↔
    (∃ interface ∈ ch.implements info,
      interface = info2 ∨ ch.implementsResolved interface info2 = true) ∨
    ∃ parent, ch.parent info = some parent ∧ ch.implementsResolved parent info2 = true := by
  rw [implementsResolved, Bool.or_eq_true]
  apply or_congr
  · simp
  · split <;> simp_all

theorem csIsBaseTypeFor_iff : ch.csIsBaseTypeFor info1 info2 = true ↔ info1 ≠ info2 ∧
    (ch.ilClassInheritsFrom info2 info1 = true ∨ ch.implementsResolved info2 info1 = true) := by
  unfold csIsBaseTypeFor ilClassImplements
  by_cases heq : info1 = info2
  · simp [heq]
  · have heq' : ¬ info2 = info1 := fun h => heq h.symm
    simp [heq, heq']

/-! ### An order -/

theorem rank_of_inheritsFrom (h : ch.ilClassInheritsFrom info info2 = true) :
    info = info2 ∨ ch.rank info2 < ch.rank info := by
  induction info using ch.rank_induction with
  | step info ih =>
    cases ilClassInheritsFrom_iff.1 h with
    | inl heq => exact .inl heq
    | inr hparent =>
      obtain ⟨parent, hparent, hrest⟩ := hparent
      have hlt := ch.rank_parent hparent
      cases ih _ hlt hrest with
      | inl heq => exact .inr (by rw [← heq]; omega)
      | inr hlt' => exact .inr (by omega)

theorem rank_of_implements (h : ch.implementsResolved info info2 = true) :
    ch.rank info2 < ch.rank info := by
  induction info using ch.rank_induction with
  | step info ih =>
    cases implementsResolved_iff.1 h with
    | inl hinterface =>
      obtain ⟨interface, hmem, hrest⟩ := hinterface
      have hlt := ch.rank_implements hmem
      cases hrest with
      | inl heq => rw [← heq]; omega
      | inr hrest =>
        have hlt' := ih _ hlt hrest
        omega
    | inr hparent =>
      obtain ⟨parent, hparent, hrest⟩ := hparent
      have hlt := ch.rank_parent hparent
      have hlt' := ih _ hlt hrest
      omega

theorem inheritsFrom_trans (h : ch.ilClassInheritsFrom info info2 = true)
    (h' : ch.ilClassInheritsFrom info2 info3 = true) :
    ch.ilClassInheritsFrom info info3 = true := by
  induction info using ch.rank_induction with
  | step info ih =>
    cases ilClassInheritsFrom_iff.1 h with
    | inl heq => rwa [heq]
    | inr hparent =>
      obtain ⟨parent, hparent, hrest⟩ := hparent
      exact ilClassInheritsFrom_iff.2
        (.inr ⟨parent, hparent, ih _ (ch.rank_parent hparent) hrest⟩)

theorem implements_of_inheritsFrom (h : ch.ilClassInheritsFrom info info2 = true)
    (h' : ch.implementsResolved info2 info3 = true) :
    ch.implementsResolved info info3 = true := by
  induction info using ch.rank_induction with
  | step info ih =>
    cases ilClassInheritsFrom_iff.1 h with
    | inl heq => rwa [heq]
    | inr hparent =>
      obtain ⟨parent, hparent, hrest⟩ := hparent
      exact implementsResolved_iff.2
        (.inr ⟨parent, hparent, ih _ (ch.rank_parent hparent) hrest⟩)

theorem implements_trans (h : ch.implementsResolved info info2 = true)
    (h' : ch.implementsResolved info2 info3 = true) :
    ch.implementsResolved info info3 = true := by
  induction info using ch.rank_induction with
  | step info ih =>
    cases implementsResolved_iff.1 h with
    | inl hinterface =>
      obtain ⟨interface, hmem, hrest⟩ := hinterface
      apply implementsResolved_iff.2
      refine .inl ⟨interface, hmem, .inr ?_⟩
      cases hrest with
      | inl heq => rwa [heq]
      | inr hrest => exact ih _ (ch.rank_implements hmem) hrest
    | inr hparent =>
      obtain ⟨parent, hparent, hrest⟩ := hparent
      exact implementsResolved_iff.2
        (.inr ⟨parent, hparent, ih _ (ch.rank_parent hparent) hrest⟩)

/-- What a class implements has no parent. -/
theorem parent_of_implements (h : ch.implementsResolved info info2 = true) :
    ch.parent info2 = none := by
  induction info using ch.rank_induction with
  | step info ih =>
    cases implementsResolved_iff.1 h with
    | inl hinterface =>
      obtain ⟨interface, hmem, hrest⟩ := hinterface
      cases hrest with
      | inl heq => exact heq ▸ ch.parent_interface hmem
      | inr hrest => exact ih _ (ch.rank_implements hmem) hrest
    | inr hparent =>
      obtain ⟨parent, hparent, hrest⟩ := hparent
      exact ih _ (ch.rank_parent hparent) hrest

theorem rank_of_isBaseTypeFor (h : ch.csIsBaseTypeFor info1 info2 = true) :
    ch.rank info1 < ch.rank info2 := by
  obtain ⟨hne, hbase⟩ := csIsBaseTypeFor_iff.1 h
  cases hbase with
  | inl hinherits =>
    cases rank_of_inheritsFrom hinherits with
    | inl heq => exact absurd heq.symm hne
    | inr hlt => exact hlt
  | inr himplements => exact rank_of_implements himplements

variable (ch) in
theorem not_csIsBaseTypeFor_self (info : C) : ch.csIsBaseTypeFor info info = false := by
  simp [csIsBaseTypeFor]

theorem csIsBaseTypeFor_trans (h : ch.csIsBaseTypeFor info1 info2 = true)
    (h' : ch.csIsBaseTypeFor info2 info3 = true) : ch.csIsBaseTypeFor info1 info3 = true := by
  have hlt := rank_of_isBaseTypeFor h
  have hlt' := rank_of_isBaseTypeFor h'
  obtain ⟨hne, hbase⟩ := csIsBaseTypeFor_iff.1 h
  obtain ⟨-, hbase'⟩ := csIsBaseTypeFor_iff.1 h'
  apply csIsBaseTypeFor_iff.2
  constructor
  · rintro rfl
    omega
  · cases hbase' with
    | inl hinherits =>
      cases hbase with
      | inl hinherits' => exact .inl (inheritsFrom_trans hinherits hinherits')
      | inr himplements => exact .inr (implements_of_inheritsFrom hinherits himplements)
    | inr himplements =>
      cases hbase with
      | inl hinherits =>
        cases ilClassInheritsFrom_iff.1 hinherits with
        | inl heq => exact absurd heq.symm hne
        | inr hparent =>
          obtain ⟨parent, hparent, _⟩ := hparent
          cases (parent_of_implements himplements).symm.trans hparent
      | inr himplements' => exact .inr (implements_trans himplements himplements')

end ClassHierarchy

end Pnet.Image
