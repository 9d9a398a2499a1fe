import Pnet.Image.Types

/-! Identity of classes and of types as `image/meta_types.c` decides it. Here the number of a
class may also be that of a reference, which the loader links to another class. Where the
source compares pointers first, two equal types may or may not be one: that changes nothing,
since every type that is made of the nodes of `ILType` is identical to itself. -/
namespace Pnet.Image

/-- `nameSpace` is null when the class has none. -/
@[ext] structure ILClassName where
  name : List ILUInt8
  nameSpace : Option (List ILUInt8)
deriving DecidableEq, Repr

/-- The loader links a reference to the class that it finds under the name of the reference.
Links and nesting scopes end, which `rank` witnesses. -/
structure ClassTable where
  className : ClassId → ILClassName
  isRef : ClassId → Bool
  nestedParent : ClassId → Option ClassId
  linkedItem : ClassId → Option ClassId
  numRedoItems : Nat
  rank : ClassId → Nat
  rank_nestedParent : ∀ {info parent}, nestedParent info = some parent → rank parent < rank info
  rank_linkedItem : ∀ {info info'}, linkedItem info = some info' → rank info' < rank info
  className_linkedItem : ∀ {info info'}, linkedItem info = some info' →
    className info' = className info

/-- A class table without names or links. -/
def noClasses : ClassTable where
  className _ := ⟨[], none⟩
  isRef _ := false
  nestedParent _ := none
  linkedItem _ := none
  numRedoItems := 0
  rank _ := 0
  rank_nestedParent := by simp
  rank_linkedItem := by simp
  className_linkedItem := by simp

namespace ClassTable

variable (ct : ClassTable)

def ilClassResolve (info : ClassId) : ClassId :=
  match h : ct.linkedItem info with
  | some info' => ilClassResolve info'
  | none => info
termination_by ct.rank info
decreasing_by exact ct.rank_linkedItem h

/-- What a link keeps, resolution keeps. -/
theorem resolve_induction {motive : ClassId → ClassId → Prop}
    (refl : ∀ info, motive info info)
    (link : ∀ {info info' info''}, ct.linkedItem info = some info' → motive info' info'' →
      motive info info'') (info : ClassId) : motive info (ct.ilClassResolve info) := by
  fun_induction ct.ilClassResolve info with
  | case1 info info' h ih => exact link h ih
  | case2 info h => exact refl info

theorem rank_ilClassResolve (info : ClassId) : ct.rank (ct.ilClassResolve info) ≤ ct.rank info := by
  apply ct.resolve_induction (motive := fun info info' => ct.rank info' ≤ ct.rank info)
  · exact fun info => Nat.le_refl _
  · intro info info' info'' h hle
    exact hle.trans (ct.rank_linkedItem h).le

theorem className_ilClassResolve (info : ClassId) :
    ct.className (ct.ilClassResolve info) = ct.className info := by
  apply ct.resolve_induction (motive := fun info info' => ct.className info' = ct.className info)
  · exact fun info => rfl
  · intro info info' info'' h heq
    exact heq.trans (ct.className_linkedItem h)

def classIdentical (info1 info2 : ClassId) : Bool :=
  if ct.ilClassResolve info1 = ct.ilClassResolve info2 then true
  else if ct.numRedoItems = 0 then false
  else if ¬ ct.isRef (ct.ilClassResolve info1) ∧ ¬ ct.isRef (ct.ilClassResolve info2) then false
  else if (ct.className (ct.ilClassResolve info1)).name ≠
      (ct.className (ct.ilClassResolve info2)).name then false
  else if (ct.className (ct.ilClassResolve info1)).nameSpace ≠
      (ct.className (ct.ilClassResolve info2)).nameSpace then false
  else
    match h : ct.nestedParent (ct.ilClassResolve info1),
        ct.nestedParent (ct.ilClassResolve info2) with
    | some parent1, some parent2 => classIdentical parent1 parent2
    | none, none => true
    | _, _ => false
termination_by ct.rank info1
decreasing_by exact (ct.rank_nestedParent h).trans_le (ct.rank_ilClassResolve info1)

theorem classIdentical_refl (info : ClassId) : ct.classIdentical info info = true := by
  unfold classIdentical
  exact if_pos rfl

/-- Identical classes go by one name. -/
theorem className_of_classIdentical {info1 info2 : ClassId}
    (h : ct.classIdentical info1 info2 = true) : ct.className info1 = ct.className info2 := by
  rw [← ct.className_ilClassResolve info1, ← ct.className_ilClassResolve info2]
  unfold classIdentical at h
  split_ifs at h with hresolve hredo href hname hspace
  · rw [hresolve]
  · exact ILClassName.ext (of_not_not hname) (of_not_not hspace)

/-- When two classes that do not resolve to the same one are identical. -/
theorem classIdentical_iff {info1 info2 : ClassId}
    (hne : ct.ilClassResolve info1 ≠ ct.ilClassResolve info2) :
    ct.classIdentical info1 info2 = true ↔ ct.numRedoItems ≠ 0 ∧
      (ct.isRef (ct.ilClassResolve info1) ∨ ct.isRef (ct.ilClassResolve info2)) ∧
      ct.className (ct.ilClassResolve info1) = ct.className (ct.ilClassResolve info2) ∧
      Option.Rel (fun parent1 parent2 => ct.classIdentical parent1 parent2 = true)
        (ct.nestedParent (ct.ilClassResolve info1)) (ct.nestedParent (ct.ilClassResolve info2)) := by
  rw [classIdentical, if_neg hne, ILClassName.ext_iff]
  split_ifs with hredo href hname hspace
  · simp [hredo]
  · exact iff_of_false id fun h => h.2.1.elim href.1 href.2
  · simp [hname]
  · simp [hspace]
  · have href := of_not_not (mt not_or.1 href)
    have hnames := And.intro (of_not_not hname) (of_not_not hspace)
    simp only [ne_eq, hredo, not_false_eq_true, href, hnames, and_self, true_and]
    split
    · next parent1 parent2 h1 h2 =>
      rw [h1, h2, Option.rel_some_some]
    · next h1 h2 =>
      rw [h1, h2]
      exact iff_of_true rfl .none
    · next hsome hnone =>
      apply iff_of_false Bool.false_ne_true
      intro hrel
      generalize hparent1 : ct.nestedParent (ct.ilClassResolve info1) = parent1 at *
      generalize hparent2 : ct.nestedParent (ct.ilClassResolve info2) = parent2 at *
      cases hrel with
      | some h => exact hsome _ _ rfl rfl
      | none => exact hnone rfl rfl

theorem classIdentical_symm {info1 info2 : ClassId} (h : ct.classIdentical info1 info2 = true) :
    ct.classIdentical info2 info1 = true := by
  induction hrank : ct.rank info1 using Nat.strong_induction_on generalizing info1 info2 with
  | h n ih =>
    by_cases hresolve : ct.ilClassResolve info1 = ct.ilClassResolve info2
    · unfold classIdentical
      exact if_pos hresolve.symm
    · obtain ⟨hredo, href, hname, hparents⟩ := (ct.classIdentical_iff hresolve).1 h
      refine (ct.classIdentical_iff (Ne.symm hresolve)).2 ⟨hredo, href.symm, hname.symm, ?_⟩
      have hbelow : ∀ parent, ct.nestedParent (ct.ilClassResolve info1) = some parent →
          ct.rank parent < n := by
        intro parent hparent
        rw [← hrank]
        exact (ct.rank_nestedParent hparent).trans_le (ct.rank_ilClassResolve info1)
      generalize ct.nestedParent (ct.ilClassResolve info1) = parents1 at *
      generalize ct.nestedParent (ct.ilClassResolve info2) = parents2 at *
      cases hparents with
      | some hparent => exact .some (ih _ (hbelow _ rfl) hparent rfl)
      | none => exact .none

end ClassTable

/-! ### Types -/

section

variable (sameClass : ClassId → ClassId → Bool)

mutual

/-- `ILTypeIdentical`, with a parameter for when two classes are identical. -/
def typeIdentical : ILType → ILType → Bool
  | .cmodReqd _ type, type2 => typeIdentical type type2
  | .cmodOpt _ type, type2 => typeIdentical type type2
  | .pinned refType, type2 => typeIdentical refType type2
  | .invalid, type2 =>
    match ilTypeStripPrefixes type2 with
    | .invalid => true
    | _ => false
  | .primitive elem, type2 =>
    match ilTypeStripPrefixes type2 with
    | .primitive elem2 => elem == elem2
    | _ => false
  | .class info, type2 =>
    match ilTypeStripPrefixes type2 with
    | .class info2 => sameClass info info2
    | _ => false
  | .valueType info, type2 =>
    match ilTypeStripPrefixes type2 with
    | .valueType info2 => sameClass info info2
    | _ => false
  | .byRef refType, type2 =>
    match ilTypeStripPrefixes type2 with
    | .byRef refType2 => typeIdentical refType refType2
    | _ => false
  | .ptr refType, type2 =>
    match ilTypeStripPrefixes type2 with
    | .ptr refType2 => typeIdentical refType refType2
    | _ => false
  | .array elemType size lowBound, type2 =>
    match ilTypeStripPrefixes type2 with
    | .array elemType2 size2 lowBound2 =>
      typeIdentical elemType elemType2 && size == size2 && lowBound == lowBound2
    | _ => false
  | .arrayContinue elemType size lowBound, type2 =>
    match ilTypeStripPrefixes type2 with
    | .arrayContinue elemType2 size2 lowBound2 =>
      typeIdentical elemType elemType2 && size == size2 && lowBound == lowBound2
    | _ => false
  | .sentinel, type2 =>
    match ilTypeStripPrefixes type2 with
    | .sentinel => true
    | _ => false
  | .var num, type2 =>
    match ilTypeStripPrefixes type2 with
    | .var num2 => num == num2
    | _ => false
  | .mvar num, type2 =>
    match ilTypeStripPrefixes type2 with
    | .mvar num2 => num == num2
    | _ => false
  | .signature kind numGen retType params, type2 =>
    match ilTypeStripPrefixes type2 with
    | .signature kind2 numGen2 retType2 params2 =>
      kind == kind2 && ilTypeIsSignature kind &&
        (!ilTypeNumGenMatters kind || numGen == numGen2) &&
        typeIdentical retType retType2 && typesIdentical params params2
    | _ => false

def typesIdentical : List ILType → List ILType → Bool
  | [], [] => true
  | type :: types, type2 :: types2 =>
    typeIdentical type type2 && typesIdentical types types2
  | _, _ => false

end

end

mutual

/-- Where a class is identical to itself only, this is the identity of the layout code. -/
theorem typeIdentical_beq : ∀ type type2,
    typeIdentical (· == ·) type type2 = ilTypeIdentical type type2
  | .cmodReqd _ type, type2 => typeIdentical_beq type type2
  | .cmodOpt _ type, type2 => typeIdentical_beq type type2
  | .pinned type, type2 => typeIdentical_beq type type2
  | .invalid, type2 | .primitive _, type2 | .class _, type2 | .valueType _, type2
  | .sentinel, type2 | .var _, type2 | .mvar _, type2 => rfl
  | .byRef type, type2 => by
    unfold typeIdentical ilTypeIdentical
    cases ilTypeStripPrefixes type2 with
    | byRef type2 => exact typeIdentical_beq type type2
    | _ => rfl
  | .ptr type, type2 => by
    unfold typeIdentical ilTypeIdentical
    cases ilTypeStripPrefixes type2 with
    | ptr type2 => exact typeIdentical_beq type type2
    | _ => rfl
  | .array type _ _, type2 => by
    unfold typeIdentical ilTypeIdentical
    cases ilTypeStripPrefixes type2 with
    | array type2 size2 lowBound2 =>
      dsimp only
      rw [typeIdentical_beq type type2]
    | _ => rfl
  | .arrayContinue type _ _, type2 => by
    unfold typeIdentical ilTypeIdentical
    cases ilTypeStripPrefixes type2 with
    | arrayContinue type2 size2 lowBound2 =>
      dsimp only
      rw [typeIdentical_beq type type2]
    | _ => rfl
  | .signature kind numGen retType params, type2 => by
    unfold typeIdentical ilTypeIdentical
    cases ilTypeStripPrefixes type2 with
    | signature kind2 numGen2 retType2 params2 =>
      dsimp only
      rw [typeIdentical_beq retType retType2, typesIdentical_beq params params2]
    | _ => rfl

theorem typesIdentical_beq : ∀ types types2,
    typesIdentical (· == ·) types types2 = ilTypesIdentical types types2
  | [], [] => rfl
  | [], _ :: _ => rfl
  | _ :: _, [] => rfl
  | type :: types, type2 :: types2 => by
    unfold typesIdentical ilTypesIdentical
    rw [typeIdentical_beq type, typesIdentical_beq types]

end

/-! ### Induction over identity -/

variable {sameClass : ClassId → ClassId → Bool}

/-- Two stripped types of one form whose parts are in the relation `R`. -/
inductive Alike (sameClass : ClassId → ClassId → Bool) (R : ILType → ILType → Prop) :
    ILType → ILType → Prop where
  | invalid : Alike sameClass R .invalid .invalid
  | primitive (elem : Nat) : Alike sameClass R (.primitive elem) (.primitive elem)
  | class {info info2 : ClassId} (h : sameClass info info2 = true) :
    Alike sameClass R (.class info) (.class info2)
  | valueType {info info2 : ClassId} (h : sameClass info info2 = true) :
    Alike sameClass R (.valueType info) (.valueType info2)
  | byRef {type type2 : ILType} (h : R type type2) : Alike sameClass R (.byRef type) (.byRef type2)
  | ptr {type type2 : ILType} (h : R type type2) : Alike sameClass R (.ptr type) (.ptr type2)
  | array {type type2 : ILType} (size lowBound : Int) (h : R type type2) :
    Alike sameClass R (.array type size lowBound) (.array type2 size lowBound)
  | arrayContinue {type type2 : ILType} (size lowBound : Int) (h : R type type2) :
    Alike sameClass R (.arrayContinue type size lowBound) (.arrayContinue type2 size lowBound)
  | sentinel : Alike sameClass R .sentinel .sentinel
  | var (num : Nat) : Alike sameClass R (.var num) (.var num)
  | mvar (num : Nat) : Alike sameClass R (.mvar num) (.mvar num)
  | signature {kind : ILUInt16} {numGen numGen2 : Nat} {retType retType2 : ILType}
      {params params2 : List ILType} (hkind : ilTypeIsSignature kind = true)
      (hnumGen : ilTypeNumGenMatters kind = true → numGen = numGen2) (hret : R retType retType2)
      (hparams : List.Forall₂ R params params2) :
    Alike sameClass R (.signature kind numGen retType params)
      (.signature kind numGen2 retType2 params2)

theorem typesIdentical_iff {types types2 : List ILType} :
    typesIdentical sameClass types types2 = true ↔
      List.Forall₂ (fun type type2 => typeIdentical sameClass type type2 = true) types types2 := by
  induction types generalizing types2 with
  | nil => cases types2 <;> simp [typesIdentical]
  | cons type types ih => cases types2 <;> simp [typesIdentical, ih]

/-- The types that stand for a prefix of another type. -/
def isPrefix : ILType → Bool
  | .cmodReqd .. | .cmodOpt .. | .pinned _ => true
  | _ => false

theorem isPrefix_ilTypeStripPrefixes (type : ILType) :
    isPrefix (ilTypeStripPrefixes type) = false := by
  fun_induction ilTypeStripPrefixes type with
  | case1 _ type ih => exact ih
  | case2 _ type ih => exact ih
  | case3 type ih => exact ih
  | case4 type hreqd hopt hpinned =>
    cases type with
    | cmodReqd info type => exact absurd rfl (hreqd info type)
    | cmodOpt info type => exact absurd rfl (hopt info type)
    | pinned type => exact absurd rfl (hpinned type)
    | _ => rfl

theorem ilTypeStripPrefixes_eq_self {type : ILType} (h : isPrefix type = false) :
    ilTypeStripPrefixes type = type := by
  cases type with
  | cmodReqd | cmodOpt | pinned => cases h
  | _ => rfl

theorem typeIdentical_ilTypeStripPrefixes (type type2 : ILType) :
    typeIdentical sameClass (ilTypeStripPrefixes type) type2 =
      typeIdentical sameClass type type2 := by
  fun_induction ilTypeStripPrefixes type with
  | case1 _ type ih => exact ih
  | case2 _ type ih => exact ih
  | case3 type ih => exact ih
  | case4 type => rfl

/-- The comparison of a type that is no prefix with one that is stripped. -/
theorem alike_of_typeIdentical {type type2 : ILType} (htype : isPrefix type = false)
    (h : typeIdentical sameClass type type2 = true) :
    Alike sameClass (fun type type2 => typeIdentical sameClass type type2 = true)
      type (ilTypeStripPrefixes type2) := by
  cases type
  case cmodReqd | cmodOpt | pinned => cases htype
  all_goals
    unfold typeIdentical at h
    generalize ilTypeStripPrefixes type2 = stripped at h ⊢
  case invalid =>
    cases stripped with
    | invalid => exact .invalid
    | _ => cases h
  case primitive elem =>
    cases stripped with
    | primitive elem2 => exact eq_of_beq h ▸ .primitive elem
    | _ => cases h
  case «class» info =>
    cases stripped with
    | «class» info2 => exact .class h
    | _ => cases h
  case valueType info =>
    cases stripped with
    | valueType info2 => exact .valueType h
    | _ => cases h
  case byRef type =>
    cases stripped with
    | byRef type2 => exact .byRef h
    | _ => cases h
  case ptr type =>
    cases stripped with
    | ptr type2 => exact .ptr h
    | _ => cases h
  case array type size lowBound =>
    cases stripped with
    | array type2 size2 lowBound2 => 
      simp only [Bool.and_eq_true, beq_iff_eq] at h
      obtain ⟨⟨h, rfl⟩, rfl⟩ := h
      exact .array size lowBound h
    | _ => cases h
  case arrayContinue type size lowBound =>
    cases stripped with
    | arrayContinue type2 size2 lowBound2 => 
      simp only [Bool.and_eq_true, beq_iff_eq] at h
      obtain ⟨⟨h, rfl⟩, rfl⟩ := h
      exact .arrayContinue size lowBound h
    | _ => cases h
  case sentinel =>
    cases stripped with
    | sentinel => exact .sentinel
    | _ => cases h
  case var num =>
    cases stripped with
    | var num2 => exact eq_of_beq h ▸ .var num
    | _ => cases h
  case mvar num =>
    cases stripped with
    | mvar num2 => exact eq_of_beq h ▸ .mvar num
    | _ => cases h
  case signature kind numGen retType params =>
    cases stripped with
    | signature kind2 numGen2 retType2 params2 => 
      simp only [Bool.and_eq_true, beq_iff_eq] at h
      obtain ⟨⟨⟨⟨rfl, hkind⟩, hnumGen⟩, hret⟩, hparams⟩ := h
      refine .signature hkind (fun hmatters => ?_) hret (typesIdentical_iff.1 hparams)
      simpa [hmatters] using hnumGen
    | _ => cases h

theorem typeIdentical_of_alike {type type2 : ILType}
    (h : Alike sameClass (fun type type2 => typeIdentical sameClass type type2 = true)
      type (ilTypeStripPrefixes type2)) : typeIdentical sameClass type type2 = true := by
  generalize hstripped : ilTypeStripPrefixes type2 = stripped at h
  cases h with
  | @signature kind numGen numGen2 retType retType2 params params2 hkind hnumGen hret hparams =>
    have hgen : (!ilTypeNumGenMatters kind || numGen == numGen2) = true := by
      cases hmatters : ilTypeNumGenMatters kind with
      | true => exact beq_iff_eq.2 (hnumGen hmatters)
      | false => rfl
    unfold typeIdentical
    simp [hstripped, hkind, hgen, hret, typesIdentical_iff.2 hparams]
  | _ =>
    unfold typeIdentical
    simp [*]

/-- Identity strips both types and then looks one level deep. -/
theorem typeIdentical_iff (type type2 : ILType) : typeIdentical sameClass type type2 = true ↔
    Alike sameClass (fun type type2 => typeIdentical sameClass type type2 = true)
      (ilTypeStripPrefixes type) (ilTypeStripPrefixes type2) := by
  rw [← typeIdentical_ilTypeStripPrefixes]
  exact ⟨alike_of_typeIdentical (isPrefix_ilTypeStripPrefixes type), typeIdentical_of_alike⟩

/-- Of the second type only the stripped form is read. -/
theorem typeIdentical_congr_right {type type2 type3 : ILType}
    (h : ilTypeStripPrefixes type2 = ilTypeStripPrefixes type3) :
    typeIdentical sameClass type type2 = typeIdentical sameClass type type3 := by
  rw [Bool.eq_iff_iff, typeIdentical_iff, typeIdentical_iff, h]

theorem Alike.mono {R S : ILType → ILType → Prop} {type type2 : ILType}
    (h : Alike sameClass R type type2)
    (hparts : ∀ part part2, sizeOf part < sizeOf type → R part part2 → S part part2) :
    Alike sameClass S type type2 := by
  cases h with
  | invalid => exact .invalid
  | primitive elem => exact .primitive elem
  | «class» h => exact .class h
  | valueType h => exact .valueType h
  | byRef h => exact .byRef (hparts _ _ (by rw [ILType.byRef.sizeOf_spec]; omega) h)
  | ptr h => exact .ptr (hparts _ _ (by rw [ILType.ptr.sizeOf_spec]; omega) h)
  | array size lowBound h =>
    exact .array size lowBound (hparts _ _ (by rw [ILType.array.sizeOf_spec]; omega) h)
  | arrayContinue size lowBound h =>
    exact .arrayContinue size lowBound
      (hparts _ _ (by rw [ILType.arrayContinue.sizeOf_spec]; omega) h)
  | sentinel => exact .sentinel
  | var num => exact .var num
  | mvar num => exact .mvar num
  | @signature kind numGen numGen2 retType retType2 params params2 hkind hnumGen hret hparams =>
    rw [ILType.signature.sizeOf_spec] at hparts
    refine .signature hkind hnumGen (hparts _ _ (by omega) hret) ?_
    have hsmall : ∀ part ∈ params, sizeOf part < sizeOf params :=
      fun part hpart => List.sizeOf_lt_of_mem hpart
    exact ((List.forall₂_and_left _ _).2 ⟨hsmall, hparams⟩).imp fun part part2 h =>
      hparts part part2 (by omega) h.2

theorem sizeOf_ilTypeStripPrefixes_le (type : ILType) :
    sizeOf (ilTypeStripPrefixes type) ≤ sizeOf type := by
  fun_induction ilTypeStripPrefixes type with
  | case1 _ type ih => exact ih.trans (by simp)
  | case2 _ type ih => exact ih.trans (by simp)
  | case3 type ih => exact ih.trans (by simp)
  | case4 type => exact Nat.le_refl _

/-- Induction over two identical types: what holds of two types when it holds of the parts of
their stripped forms. -/
theorem typeIdentical_induction {motive : ILType → ILType → Prop}
    (step : ∀ type type2, Alike sameClass motive (ilTypeStripPrefixes type)
      (ilTypeStripPrefixes type2) → motive type type2) {type type2 : ILType}
    (h : typeIdentical sameClass type type2 = true) : motive type type2 := by
  induction hsize : sizeOf type using Nat.strong_induction_on generalizing type type2 with
  | h n ih =>
    have halike := (typeIdentical_iff type type2).1 h
    apply step
    apply halike.mono
    intro part part2 hlt hpart
    have hle := sizeOf_ilTypeStripPrefixes_le type
    exact ih (sizeOf part) (by omega) hpart rfl

theorem typeIdentical_symm
    (hsymm : ∀ {info info2}, sameClass info info2 = true → sameClass info2 info = true)
    {type type2 : ILType} (h : typeIdentical sameClass type type2 = true) :
    typeIdentical sameClass type2 type = true := by
  refine typeIdentical_induction
    (motive := fun type type2 => typeIdentical sameClass type2 type = true) ?_ h
  intro type type2 halike
  apply (typeIdentical_iff type2 type).2
  generalize ilTypeStripPrefixes type = stripped at halike ⊢
  generalize ilTypeStripPrefixes type2 = stripped2 at halike ⊢
  cases halike with
  | invalid => exact .invalid
  | primitive elem => exact .primitive elem
  | «class» h => exact .class (hsymm h)
  | valueType h => exact .valueType (hsymm h)
  | byRef h => exact .byRef h
  | ptr h => exact .ptr h
  | array size lowBound h => exact .array size lowBound h
  | arrayContinue size lowBound h => exact .arrayContinue size lowBound h
  | sentinel => exact .sentinel
  | var num => exact .var num
  | mvar num => exact .mvar num
  | signature hkind hnumGen hret hparams =>
    exact .signature hkind (fun h => (hnumGen h).symm) hret hparams.flip

/-- Signature nodes are method, property or generic-instance nodes, at every level. -/
def IsWellFormed : ILType → Prop
  | .byRef type | .ptr type | .pinned type | .cmodReqd _ type | .cmodOpt _ type => IsWellFormed type
  | .array type _ _ | .arrayContinue type _ _ => IsWellFormed type
  | .signature kind _ retType params =>
    ilTypeIsSignature kind = true ∧ IsWellFormed retType ∧ ∀ param ∈ params, IsWellFormed param
  | _ => True

theorem IsWellFormed.strip {type : ILType} (h : IsWellFormed type) :
    IsWellFormed (ilTypeStripPrefixes type) := by
  fun_induction ilTypeStripPrefixes type with
  | case1 _ type ih => exact ih (by simpa only [IsWellFormed] using h)
  | case2 _ type ih => exact ih (by simpa only [IsWellFormed] using h)
  | case3 type ih => exact ih (by simpa only [IsWellFormed] using h)
  | case4 type => exact h

theorem typeIdentical_refl (hrefl : ∀ info, sameClass info info = true) {type : ILType}
    (h : IsWellFormed type) : typeIdentical sameClass type type = true := by
  induction hsize : sizeOf type using Nat.strong_induction_on generalizing type with
  | h n ih =>
    apply (typeIdentical_iff type type).2
    have hstripped := h.strip
    have hstarts := isPrefix_ilTypeStripPrefixes type
    have hle := sizeOf_ilTypeStripPrefixes_le type
    rw [hsize] at hle
    generalize ilTypeStripPrefixes type = stripped at hstripped hstarts hle ⊢
    cases stripped with
    | cmodReqd | cmodOpt | pinned => cases hstarts
    | invalid => exact .invalid
    | primitive elem => exact .primitive elem
    | «class» info => exact .class (hrefl info)
    | valueType info => exact .valueType (hrefl info)
    | byRef part =>
      simp only [IsWellFormed, ILType.byRef.sizeOf_spec] at hstripped hle
      exact .byRef (ih _ (by omega) hstripped rfl)
    | ptr part =>
      simp only [IsWellFormed, ILType.ptr.sizeOf_spec] at hstripped hle
      exact .ptr (ih _ (by omega) hstripped rfl)
    | array part size lowBound =>
      simp only [IsWellFormed, ILType.array.sizeOf_spec] at hstripped hle
      exact .array size lowBound (ih _ (by omega) hstripped rfl)
    | arrayContinue part size lowBound =>
      simp only [IsWellFormed, ILType.arrayContinue.sizeOf_spec] at hstripped hle
      exact .arrayContinue size lowBound (ih _ (by omega) hstripped rfl)
    | sentinel => exact .sentinel
    | var num => exact .var num
    | mvar num => exact .mvar num
    | signature kind numGen retType params =>
      simp only [IsWellFormed, ILType.signature.sizeOf_spec] at hstripped hle
      obtain ⟨hkind, hret, hparams⟩ := hstripped
      refine .signature hkind (fun _ => rfl) (ih _ (by omega) hret rfl) ?_
      rw [List.forall₂_same]
      intro param hparam
      have hlt := List.sizeOf_lt_of_mem hparam
      exact ih _ (by omega) (hparams param hparam) rfl

end Pnet.Image
