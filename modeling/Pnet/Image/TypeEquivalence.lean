import Pnet.Image.TypeHash

/-! Identity of types as an equivalence. While references wait to be linked, a class that is
one is identical to every definition of its name, and two definitions are never identical. -/
namespace Pnet.Image

namespace ClassTable

variable (ct : ClassTable)

/-- No reference is identical to two different definitions. -/
def OneDefinition : Prop :=
  ∀ info1 ref info2, ct.isRef (ct.ilClassResolve info1) = false →
    ct.isRef (ct.ilClassResolve ref) = true → ct.isRef (ct.ilClassResolve info2) = false →
    ct.classIdentical info1 ref = true → ct.classIdentical ref info2 = true →
    ct.ilClassResolve info1 = ct.ilClassResolve info2

variable {ct} {info1 info2 info3 : ClassId}

theorem classIdentical_of_resolve (h : ct.ilClassResolve info1 = ct.ilClassResolve info2) :
    ct.classIdentical info1 info2 = true := by
  unfold classIdentical
  exact if_pos h

theorem classIdentical_congr_left (h : ct.ilClassResolve info1 = ct.ilClassResolve info2) :
    ct.classIdentical info1 info3 = ct.classIdentical info2 info3 := by
  rw [Bool.eq_iff_iff]
  by_cases hne : ct.ilClassResolve info1 = ct.ilClassResolve info3
  · exact iff_of_true (classIdentical_of_resolve hne) (classIdentical_of_resolve (h.symm.trans hne))
  · rw [ct.classIdentical_iff hne, ct.classIdentical_iff (h ▸ hne), h]

theorem classIdentical_congr_right (h : ct.ilClassResolve info2 = ct.ilClassResolve info3) :
    ct.classIdentical info1 info2 = ct.classIdentical info1 info3 := by
  rw [Bool.eq_iff_iff]
  by_cases hne : ct.ilClassResolve info1 = ct.ilClassResolve info2
  · exact iff_of_true (classIdentical_of_resolve hne) (classIdentical_of_resolve (hne.trans h))
  · rw [ct.classIdentical_iff hne, ct.classIdentical_iff (h ▸ hne), h]

theorem oneDefinition_of_numRedoItems (h : ct.numRedoItems = 0) : ct.OneDefinition := by
  intro info1 ref info2 _ _ _ h1 h2
  by_contra hne
  by_cases hresolve : ct.ilClassResolve info1 = ct.ilClassResolve ref
  · exact ((ct.classIdentical_iff (hresolve ▸ hne)).1 h2).1 h
  · exact ((ct.classIdentical_iff hresolve).1 h1).1 h

theorem classIdentical_trans (hone : ct.OneDefinition)
    (h1 : ct.classIdentical info1 info2 = true) (h2 : ct.classIdentical info2 info3 = true) :
    ct.classIdentical info1 info3 = true := by
  induction hrank : ct.rank info1 using Nat.strong_induction_on generalizing info1 info2 info3 with
  | h n ih =>
    by_cases h12 : ct.ilClassResolve info1 = ct.ilClassResolve info2
    · rwa [classIdentical_congr_left h12]
    by_cases h23 : ct.ilClassResolve info2 = ct.ilClassResolve info3
    · rwa [← classIdentical_congr_right h23]
    by_cases h13 : ct.ilClassResolve info1 = ct.ilClassResolve info3
    · exact classIdentical_of_resolve h13
    obtain ⟨hredo, href, hname, hparents⟩ := (ct.classIdentical_iff h12).1 h1
    obtain ⟨_, href', hname', hparents'⟩ := (ct.classIdentical_iff h23).1 h2
    refine (ct.classIdentical_iff h13).2 ⟨hredo, ?_, hname.trans hname', ?_⟩
    · -- Between two definitions there is only a reference in the middle.
      by_contra hnone
      rw [not_or, Bool.not_eq_true, Bool.not_eq_true] at hnone
      have hmiddle : ct.isRef (ct.ilClassResolve info2) = true := by
        rw [hnone.1] at href
        exact href.resolve_left Bool.false_ne_true
      exact h13 (hone info1 info2 info3 hnone.1 hmiddle hnone.2 h1 h2)
    · have hbelow : ∀ parent, ct.nestedParent (ct.ilClassResolve info1) = some parent →
          ct.rank parent < n := by
        intro parent hparent
        rw [← hrank]
        exact (ct.rank_nestedParent hparent).trans_le (ct.rank_ilClassResolve info1)
      generalize ct.nestedParent (ct.ilClassResolve info1) = parent1 at *
      generalize ct.nestedParent (ct.ilClassResolve info2) = parent2 at *
      generalize ct.nestedParent (ct.ilClassResolve info3) = parent3 at *
      cases hparents with
      | none =>
        cases hparents'
        exact .none
      | some hparent =>
        cases hparents' with
        | some hparent' => exact .some (ih _ (hbelow _ rfl) hparent hparent' rfl)

end ClassTable

variable {sameClass : ClassId → ClassId → Bool}

theorem forall₂_trans {R S T : ILType → ILType → Prop} {types types2 types3 : List ILType}
    (htrans : ∀ type type2 type3, R type type2 → S type2 type3 → T type type3)
    (h : List.Forall₂ R types types2) (h' : List.Forall₂ S types2 types3) :
    List.Forall₂ T types types3 := by
  induction h generalizing types3 with
  | nil =>
    cases h'
    exact .nil
  | cons hhead _ ih =>
    cases h' with
    | cons hhead' htail' => exact .cons (htrans _ _ _ hhead hhead') (ih htail')

theorem typeIdentical_trans
    (htrans : ∀ info info2 info3, sameClass info info2 = true → sameClass info2 info3 = true →
      sameClass info info3 = true) {type type2 type3 : ILType}
    (h : typeIdentical sameClass type type2 = true)
    (h' : typeIdentical sameClass type2 type3 = true) :
    typeIdentical sameClass type type3 = true := by
  refine typeIdentical_induction (motive := fun type type2 => ∀ type3,
    typeIdentical sameClass type2 type3 = true → typeIdentical sameClass type type3 = true)
    ?_ h type3 h'
  intro type type2 halike type3 h'
  rw [typeIdentical_iff] at h' ⊢
  generalize ilTypeStripPrefixes type = stripped at halike ⊢
  generalize ilTypeStripPrefixes type2 = stripped2 at halike h'
  generalize ilTypeStripPrefixes type3 = stripped3 at h' ⊢
  cases halike with
  | invalid => exact h'
  | primitive elem => exact h'
  | «class» h =>
    cases h' with
    | «class» h' => exact .class (htrans _ _ _ h h')
  | valueType h =>
    cases h' with
    | valueType h' => exact .valueType (htrans _ _ _ h h')
  | byRef h =>
    cases h' with
    | byRef h' => exact .byRef (h _ h')
  | ptr h =>
    cases h' with
    | ptr h' => exact .ptr (h _ h')
  | array size lowBound h =>
    cases h' with
    | array _ _ h' => exact .array size lowBound (h _ h')
  | arrayContinue size lowBound h =>
    cases h' with
    | arrayContinue _ _ h' => exact .arrayContinue size lowBound (h _ h')
  | sentinel => exact h'
  | var num => exact h'
  | mvar num => exact h'
  | signature hkind hnumGen hret hparams =>
    cases h' with
    | signature _ hnumGen' hret' hparams' =>
      refine .signature hkind (fun h => (hnumGen h).trans (hnumGen' h)) (hret _ hret') ?_
      exact forall₂_trans (fun _ _ _ hmotive h' => hmotive _ h') hparams hparams'

/-- Classes 0 and 2 are definitions of one name in different images; class 1 is a reference
to that name which is not linked yet. -/
def twoDefinitions : ClassTable where
  className _ := ⟨[0x41], none⟩
  isRef info := info == 1
  nestedParent _ := none
  linkedItem _ := none
  numRedoItems := 1
  rank info := info
  rank_nestedParent := by simp
  rank_linkedItem := by simp
  className_linkedItem := by simp

end Pnet.Image
