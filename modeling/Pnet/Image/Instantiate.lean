import Pnet.Image.TypeIdentity
import Pnet.Image.TypeSubst

/-! `ILTypeInstantiate` of `image/generic.c`, and what it builds types with. Signatures of local
variables are no types of values and left out. Allocation is taken to succeed. -/
namespace Pnet.Image

def isNull : ILType → Bool
  | .invalid => true
  | _ => false

/-! ### Reading and building types -/

/-- `ILTypeGetParamWithPrefixes`; index 0 is the return type. -/
def ilTypeGetParamWithPrefixes (method : ILType) (index : Nat) : ILType :=
  match method with
  | .signature kind _ retType params =>
    if ilTypeIsSignature kind then
      if index = 0 then retType else params.getD (index - 1) .invalid
    else .invalid
  | _ => .invalid

def ilTypeGetElemType : ILType → ILType
  | .arrayContinue elemType _ _ => ilTypeGetElemType elemType
  | .array elemType _ _ => elemType
  | _ => .invalid

def ilTypeGetRank : ILType → Nat
  | .arrayContinue elemType _ _ => ilTypeGetRank elemType + 1
  | .array .. => 1
  | _ => 0

/-- The loop of `ILTypeCreateArray`, of which `rank` rounds are left. -/
def continueArray : Nat → ILType → ILType
  | 0, type => type
  | rank + 1, type => continueArray rank (.arrayContinue type 0 0)

def ilTypeCreateArray (rank : Nat) (elem : ILType) : ILType :=
  continueArray (rank - 1) (.array elem 0 0)

/-- The system value types with a primitive equivalent. -/
def primitiveEquivalents : List (String × Nat) :=
  [("Boolean", ElemType.boolean), ("SByte", ElemType.i1), ("Byte", ElemType.u1),
    ("Int16", ElemType.i2), ("UInt16", ElemType.u2), ("Char", ElemType.char),
    ("Int32", ElemType.i4), ("UInt32", ElemType.u4), ("Int64", ElemType.i8),
    ("UInt64", ElemType.u8), ("Single", ElemType.r4), ("Double", ElemType.r8),
    ("IntPtr", ElemType.i), ("UIntPtr", ElemType.u), ("Void", ElemType.void),
    ("TypedReference", ElemType.typedByRef)]

/-- The bytes of a name in ASCII. -/
def nameBytes (name : String) : List ILUInt8 := name.toList.map fun c => BitVec.ofNat 8 c.toNat

section

variable (ct : ClassTable) (synthetic : ClassId → ILType)

def ilClassToPrimitiveType (info : ClassId) : ILType :=
  match synthetic info with
  | .primitive elem => .primitive elem
  | _ =>
    if (ct.className info).nameSpace = some (nameBytes "System") ∧ ct.nestedParent info = none then
      match primitiveEquivalents.find? fun entry => nameBytes entry.1 = (ct.className info).name with
      | some entry => .primitive entry.2
      | none => .invalid
    else .invalid

/-- What `ILTypeCreateMethod` and `ILTypeAddParam` do to a type first. -/
def toPrimitive (type : ILType) : ILType :=
  match type with
  | .valueType info =>
    if isNull (ilClassToPrimitiveType ct synthetic info) then type
    else ilClassToPrimitiveType ct synthetic info
  | _ => type

def ilTypeCreateMethod (returnType : ILType) : ILType :=
  .signature ilTypeComplexMethod 0 (toPrimitive ct synthetic returnType) []

def ilTypeAddParam (method paramType : ILType) : ILType :=
  match method with
  | .signature kind numGen retType params =>
    .signature kind numGen retType (params ++ [toPrimitive ct synthetic paramType])
  | _ => method

end

def setKind (type : ILType) (kind : ILUInt16) : ILType :=
  match type with
  | .signature _ numGen retType params => .signature kind numGen retType params
  | _ => type

/-! ### Instantiation -/

/-- The signatures that instantiation looks into. `IL_TYPE_COMPLEX_SENTINEL` is the kind of the
sentinel type; the flag of a signature that has one is `IL_TYPE_COMPLEX_METHOD_SENTINEL`. -/
def instantiatesKind (kind : ILUInt16) : Bool :=
  kind &&& 0xFF == ilTypeComplexWith || kind &&& 0xFF == ilTypeComplexProperty ||
    kind &&& 0xFF == ilTypeComplexMethod || kind &&& 0xFF == ilTypeComplexMethod ||| 9

mutual

/-- Prefixes do not change the answer, so they are not stripped off parameters here. -/
def ilTypeNeedsInstantiation : ILType → Bool
  | .byRef refType | .ptr refType | .pinned refType => ilTypeNeedsInstantiation refType
  | .array elemType _ _ => ilTypeNeedsInstantiation elemType
  | .arrayContinue elemType _ _ => elemNeedsInstantiation elemType
  | .cmodReqd _ type | .cmodOpt _ type => ilTypeNeedsInstantiation type
  | .var _ | .mvar _ => true
  | .signature kind _ retType params =>
    instantiatesKind kind && (ilTypeNeedsInstantiation retType || anyNeedsInstantiation params)
  | _ => false

/-- The same of `ILTypeGetElemType`. -/
def elemNeedsInstantiation : ILType → Bool
  | .arrayContinue elemType _ _ => elemNeedsInstantiation elemType
  | .array elemType _ _ => ilTypeNeedsInstantiation elemType
  | _ => false

def anyNeedsInstantiation : List ILType → Bool
  | [] => false
  | type :: types => ilTypeNeedsInstantiation type || anyNeedsInstantiation types

end

section

variable (ct : ClassTable) (synthetic : ClassId → ILType) (classParams methodParams : ILType)

mutual

def ilTypeInstantiate : ILType → ILType
  | .byRef refType =>
    if ilTypeNeedsInstantiation (.byRef refType) then
      let inner := ilTypeInstantiate refType
      if isNull inner then .invalid else .byRef inner
    else .byRef refType
  | .ptr refType =>
    if ilTypeNeedsInstantiation (.ptr refType) then
      let inner := ilTypeInstantiate refType
      if isNull inner then .invalid else .ptr inner
    else .ptr refType
  | .pinned refType =>
    if ilTypeNeedsInstantiation (.pinned refType) then
      let inner := ilTypeInstantiate refType
      if isNull inner then .invalid else .pinned inner
    else .pinned refType
  | .array elemType size lowBound =>
    if ilTypeNeedsInstantiation (.array elemType size lowBound) then
      let inner := ilTypeInstantiate elemType
      if isNull inner then .invalid
      else ilTypeCreateArray (ilTypeGetRank (.array elemType size lowBound)) inner
    else .array elemType size lowBound
  | .arrayContinue elemType size lowBound =>
    if ilTypeNeedsInstantiation (.arrayContinue elemType size lowBound) then
      let inner := elemInstantiate elemType
      if isNull inner then .invalid
      else ilTypeCreateArray (ilTypeGetRank (.arrayContinue elemType size lowBound)) inner
    else .arrayContinue elemType size lowBound
  | .cmodReqd info type =>
    if ilTypeNeedsInstantiation (.cmodReqd info type) then .cmodReqd info (ilTypeInstantiate type)
    else .cmodReqd info type
  | .cmodOpt info type =>
    if ilTypeNeedsInstantiation (.cmodOpt info type) then .cmodOpt info (ilTypeInstantiate type)
    else .cmodOpt info type
  | .mvar num =>
    if isNull methodParams then .mvar num else ilTypeGetParamWithPrefixes methodParams (num + 1)
  | .var num =>
    if isNull classParams then .invalid else ilTypeGetParamWithPrefixes classParams (num + 1)
  | .signature kind numGen retType params =>
    if ilTypeNeedsInstantiation (.signature kind numGen retType params) then
      let inner := ilTypeInstantiate retType
      if !isNull retType && isNull inner then .invalid
      else paramsInstantiate (setKind (ilTypeCreateMethod ct synthetic inner) kind) params
    else .signature kind numGen retType params
  | type => type

/-- The same of `ILTypeGetElemType`. -/
def elemInstantiate : ILType → ILType
  | .arrayContinue elemType _ _ => elemInstantiate elemType
  | .array elemType _ _ => ilTypeInstantiate elemType
  | _ => .invalid

/-- The loop over the parameters, which adds them to a new signature. -/
def paramsInstantiate (newType : ILType) : List ILType → ILType
  | [] => newType
  | param :: params =>
    let inner := ilTypeInstantiate param
    if isNull inner then .invalid
    else paramsInstantiate (ilTypeAddParam ct synthetic newType inner) params

end

end

end Pnet.Image

/-! ### Substitution

Instantiation beside substitution. A node that has a type variable in it is built anew, and
what is built does not have all that the node had: the sizes of an array, the number of generic
parameters of a signature and a value type that has a primitive equivalent get lost. A signature
with a sentinel is not looked into at all. -/
namespace Pnet.Image

/-- The argument for a type variable. -/
def typeArg (classParams methodParams : ILType) : TypeVar → ILType
  | .var num => ilTypeGetParamWithPrefixes classParams (num + 1)
  | .mvar num => ilTypeGetParamWithPrefixes methodParams (num + 1)

/-- The arguments that the lists have for the variables of a type are types. -/
def Covers (arg : TypeVar → ILType) (type : ILType) : Prop := ∀ v ∈ typeVars type, arg v ≠ .invalid

/-- All variables stand for themselves. -/
def Fixed (arg : TypeVar → ILType) (type : ILType) : Prop := ∀ v ∈ typeVars type, arg v = v.toType

section

variable (ct : ClassTable) (synthetic : ClassId → ILType) (arg : TypeVar → ILType)

/-- A value type with a primitive equivalent. -/
def hasPrimitive : ILType → Bool
  | .valueType info => !isNull (ilClassToPrimitiveType ct synthetic info)
  | _ => false

mutual

/-- Nothing gets lost: a node that is built anew has no sizes, low bounds, generic parameters,
null parameters, and no value type with a primitive equivalent in a place where it is replaced;
and in a node that is left alone all variables stand for themselves. -/
def KeepsRest : ILType → Prop
  | .byRef type | .ptr type | .pinned type | .cmodReqd _ type | .cmodOpt _ type => KeepsRest type
  | .array elemType size lowBound =>
    KeepsRest elemType ∧ (ilTypeNeedsInstantiation elemType = true → size = 0 ∧ lowBound = 0)
  | .arrayContinue elemType size lowBound =>
    if elemNeedsInstantiation elemType then KeepsRest elemType ∧ size = 0 ∧ lowBound = 0
    else Fixed arg elemType
  | .signature kind numGen retType params =>
    if ilTypeNeedsInstantiation (.signature kind numGen retType params) then
      numGen = 0 ∧ (KeepsRest retType ∧ hasPrimitive ct synthetic (subst arg retType) = false) ∧
        AllKeepRest params
    else Fixed arg (.signature kind numGen retType params)
  | _ => True

def AllKeepRest : List ILType → Prop
  | [] => True
  | type :: types =>
    (type ≠ .invalid ∧ KeepsRest type ∧ hasPrimitive ct synthetic (subst arg type) = false) ∧
      AllKeepRest types

end

end

/-! ### Primitive equivalents -/

variable {ct : ClassTable} {synthetic : ClassId → ILType} {classParams methodParams : ILType}

theorem isNull_eq_false_iff {type : ILType} : isNull type = false ↔ type ≠ .invalid := by
  cases type <;> simp [isNull]

theorem ilClassToPrimitiveType_ne (info info' : ClassId) :
    ilClassToPrimitiveType ct synthetic info ≠ .valueType info' := by
  unfold ilClassToPrimitiveType
  split
  · simp
  · split
    · split <;> simp
    · simp

theorem toPrimitive_eq_self_iff {type : ILType} :
    toPrimitive ct synthetic type = type ↔ hasPrimitive ct synthetic type = false := by
  cases type with
  | valueType info =>
    unfold toPrimitive hasPrimitive
    dsimp only
    split_ifs with hnull
    · simp [hnull]
    · simp [hnull, ilClassToPrimitiveType_ne]
  | _ => simp [toPrimitive, hasPrimitive]

/-! ### What is not looked into -/

theorem instantiate_of_not_needs {type : ILType} (h : ilTypeNeedsInstantiation type = false) :
    ilTypeInstantiate ct synthetic classParams methodParams type = type := by
  have hno : ¬ ilTypeNeedsInstantiation type = true := Bool.eq_false_iff.1 h
  cases type with
  | var | mvar => cases h
  | invalid | primitive | «class» | valueType | sentinel => rfl
  | _ =>
    unfold ilTypeInstantiate
    exact if_neg hno

theorem ne_invalid_of_needs {type : ILType} (h : ilTypeNeedsInstantiation type = true) :
    type ≠ .invalid := by
  rintro rfl
  cases h

/-! ### Nodes that are built anew -/

/-- Building a node around a part, or giving up when the part is null. -/
theorem ite_null_eq_iff {inner built target : ILType} {P : Prop} (htarget : target ≠ .invalid)
    (hbuilt : inner ≠ .invalid → (built = target ↔ P)) (hinner : P → inner ≠ .invalid) :
    (if isNull inner = true then .invalid else built) = target ↔ P := by
  cases hnull : isNull inner with
  | true =>
    have hinvalid : inner = .invalid := by
      cases inner <;> first | rfl | cases hnull
    rw [if_pos rfl]
    exact iff_of_false htarget.symm fun h => hinner h hinvalid
  | false =>
    rw [if_neg Bool.false_ne_true]
    exact hbuilt (isNull_eq_false_iff.1 hnull)

theorem continueArray_succ (rank : Nat) (type : ILType) :
    continueArray (rank + 1) type = .arrayContinue (continueArray rank type) 0 0 := by
  induction rank generalizing type with
  | zero => rfl
  | succ rank ih => exact ih (.arrayContinue type 0 0)

theorem createArray_succ {rank : Nat} (hrank : 0 < rank) (elem : ILType) :
    ilTypeCreateArray (rank + 1) elem = .arrayContinue (ilTypeCreateArray rank elem) 0 0 := by
  obtain ⟨rank, rfl⟩ := Nat.exists_eq_succ_of_ne_zero hrank.ne'
  exact continueArray_succ rank _

theorem isNull_createArray (rank : Nat) (elem : ILType) :
    isNull (ilTypeCreateArray rank elem) = false := by
  unfold ilTypeCreateArray
  cases rank - 1 with
  | zero => rfl
  | succ rank =>
    rw [continueArray_succ]
    rfl

/-- The inner dimensions of an array are an array themselves. -/
theorem needs_of_elemNeeds {type : ILType} (h : elemNeedsInstantiation type = true) :
    ilTypeNeedsInstantiation type = true ∧ 0 < ilTypeGetRank type := by
  cases type with
  | array elemType size lowBound => exact ⟨h, Nat.one_pos⟩
  | arrayContinue elemType size lowBound => exact ⟨h, Nat.succ_pos _⟩
  | _ => cases h

theorem instantiate_of_elemNeeds {type : ILType} (h : elemNeedsInstantiation type = true) :
    ilTypeInstantiate ct synthetic classParams methodParams type =
      if isNull (elemInstantiate ct synthetic classParams methodParams type) then .invalid
      else ilTypeCreateArray (ilTypeGetRank type)
        (elemInstantiate ct synthetic classParams methodParams type) := by
  have hneeds := (needs_of_elemNeeds h).1
  cases type with
  | array | arrayContinue =>
    unfold ilTypeInstantiate
    rw [if_pos hneeds]
    rfl
  | _ => cases h

theorem instantiate_arrayContinue {elemType : ILType} (size lowBound : Int)
    (h : elemNeedsInstantiation elemType = true) :
    ilTypeInstantiate ct synthetic classParams methodParams (.arrayContinue elemType size lowBound) =
      if isNull (ilTypeInstantiate ct synthetic classParams methodParams elemType) then .invalid
      else .arrayContinue (ilTypeInstantiate ct synthetic classParams methodParams elemType) 0 0 := by
  have houter : elemNeedsInstantiation (.arrayContinue elemType size lowBound) = true := h
  rw [instantiate_of_elemNeeds houter, instantiate_of_elemNeeds h]
  show (if isNull (elemInstantiate ct synthetic classParams methodParams elemType) then _ else _) = _
  cases hnull : isNull (elemInstantiate ct synthetic classParams methodParams elemType) with
  | true => rfl
  | false =>
    simp only [Bool.false_eq_true, if_false, isNull_createArray]
    exact createArray_succ (needs_of_elemNeeds h).2 _

/-! ### Parameters -/

theorem continueArray_ne_valueType {rank : Nat} {type : ILType} {info : ClassId}
    (h : type ≠ .valueType info) : continueArray rank type ≠ .valueType info := by
  cases rank with
  | zero => exact h
  | succ rank =>
    rw [continueArray_succ]
    simp

theorem paramsInstantiate_ne_valueType {kind : ILUInt16} {numGen : Nat} {retType : ILType}
    {info : ClassId} (params acc : List ILType) :
    paramsInstantiate ct synthetic classParams methodParams (.signature kind numGen retType acc)
      params ≠ .valueType info := by
  induction params generalizing acc with
  | nil => simp [paramsInstantiate]
  | cons param params ih =>
    unfold paramsInstantiate
    dsimp only
    split_ifs
    · simp
    · exact ih _

/-- Only where a value type stands for itself, or is an argument, does one come out. -/
theorem subst_of_instantiate_valueType {type : ILType} {info : ClassId}
    (h : ilTypeInstantiate ct synthetic classParams methodParams type = .valueType info) :
    subst (typeArg classParams methodParams) type = .valueType info := by
  cases type with
  | valueType info' => exact h
  | var num =>
    unfold ilTypeInstantiate at h
    split_ifs at h
    exact h
  | mvar num =>
    unfold ilTypeInstantiate at h
    split_ifs at h
    exact h
  | array elemType size lowBound =>
    unfold ilTypeInstantiate at h
    dsimp only at h
    split_ifs at h
    exact absurd h (continueArray_ne_valueType (by simp))
  | arrayContinue elemType size lowBound =>
    unfold ilTypeInstantiate at h
    dsimp only at h
    split_ifs at h
    exact absurd h (continueArray_ne_valueType (by simp))
  | signature kind numGen retType params =>
    unfold ilTypeInstantiate at h
    dsimp only at h
    split_ifs at h
    exact absurd h (paramsInstantiate_ne_valueType params [])
  | invalid | primitive | «class» | sentinel => cases h
  | cmodReqd info' type | cmodOpt info' type =>
    unfold ilTypeInstantiate at h
    split_ifs at h
  | byRef type | ptr type | pinned type =>
    unfold ilTypeInstantiate at h
    dsimp only at h
    split_ifs at h

theorem toPrimitive_instantiate_iff {type : ILType} :
    toPrimitive ct synthetic (ilTypeInstantiate ct synthetic classParams methodParams type) =
        subst (typeArg classParams methodParams) type ↔
      ilTypeInstantiate ct synthetic classParams methodParams type =
          subst (typeArg classParams methodParams) type ∧
        hasPrimitive ct synthetic (subst (typeArg classParams methodParams) type) = false := by
  constructor
  · intro h
    have heq : ilTypeInstantiate ct synthetic classParams methodParams type =
        subst (typeArg classParams methodParams) type := by
      cases hinst : ilTypeInstantiate ct synthetic classParams methodParams type with
      | valueType info => exact (subst_of_instantiate_valueType hinst).symm
      | _ =>
        rw [hinst] at h
        exact h
    rw [heq, toPrimitive_eq_self_iff] at h
    exact ⟨heq, h⟩
  · rintro ⟨heq, hprimitive⟩
    rw [heq]
    exact toPrimitive_eq_self_iff.2 hprimitive

/-! ### Instantiation and substitution -/

theorem iff_of_not_needs {type : ILType} {Keeps : Prop}
    (ih : ilTypeInstantiate ct synthetic classParams methodParams type =
      subst (typeArg classParams methodParams) type ↔ Keeps)
    (hneeds : ilTypeNeedsInstantiation type = false) :
    type = subst (typeArg classParams methodParams) type ↔ Keeps := by
  rwa [instantiate_of_not_needs hneeds] at ih

theorem fixed_iff {arg : TypeVar → ILType} {type : ILType} :
    type = subst arg type ↔ Fixed arg type :=
  eq_comm.trans (subst_eq_self_iff type)

theorem instantiate_ne_invalid {type : ILType} (hne : type ≠ .invalid)
    (hcovers : Covers (typeArg classParams methodParams) type)
    (h : ilTypeInstantiate ct synthetic classParams methodParams type =
      subst (typeArg classParams methodParams) type) :
    ilTypeInstantiate ct synthetic classParams methodParams type ≠ .invalid :=
  h ▸ subst_ne_invalid hne hcovers

/-- A node with one part. -/
theorem instantiate_node_iff (build : ILType → ILType) (type : ILType) {Keeps : Prop}
    (hcovers : Covers (typeArg classParams methodParams) type)
    (hinj : ∀ a b, build a = build b ↔ a = b) (hbuild : ∀ a, build a ≠ .invalid)
    (ih : ilTypeInstantiate ct synthetic classParams methodParams type =
      subst (typeArg classParams methodParams) type ↔ Keeps) :
    (if ilTypeNeedsInstantiation type = true then
        if isNull (ilTypeInstantiate ct synthetic classParams methodParams type) = true then .invalid
        else build (ilTypeInstantiate ct synthetic classParams methodParams type)
      else build type) = build (subst (typeArg classParams methodParams) type) ↔ Keeps := by
  cases hneeds : ilTypeNeedsInstantiation type with
  | true =>
    have hne := ne_invalid_of_needs hneeds
    rw [if_pos rfl]
    exact ite_null_eq_iff (hbuild _) (fun _ => (hinj _ _).trans ih) fun h =>
      instantiate_ne_invalid hne hcovers (ih.2 h)
  | false =>
    rw [if_neg Bool.false_ne_true, hinj, iff_of_not_needs ih hneeds]

theorem instantiate_modifier_iff (build : ILType → ILType) {type : ILType} {Keeps : Prop}
    (hinj : ∀ a b, build a = build b ↔ a = b)
    (ih : ilTypeInstantiate ct synthetic classParams methodParams type =
      subst (typeArg classParams methodParams) type ↔ Keeps) :
    (if ilTypeNeedsInstantiation type = true then
        build (ilTypeInstantiate ct synthetic classParams methodParams type)
      else build type) = build (subst (typeArg classParams methodParams) type) ↔ Keeps := by
  cases hneeds : ilTypeNeedsInstantiation type with
  | true => rw [if_pos rfl, hinj, ih]
  | false => rw [if_neg Bool.false_ne_true, hinj, iff_of_not_needs ih hneeds]

/-- A dimension of an array, which is built anew without its size and low bound. -/
theorem instantiate_dimension_iff (build : ILType → Int → Int → ILType) {type : ILType}
    {size lowBound : Int} {Keeps : Prop}
    (hcovers : Covers (typeArg classParams methodParams) type) (hne : type ≠ .invalid)
    (hinj : ∀ a b s s' l l', build a s l = build b s' l' ↔ a = b ∧ s = s' ∧ l = l')
    (hbuild : ∀ a s l, build a s l ≠ .invalid)
    (ih : ilTypeInstantiate ct synthetic classParams methodParams type =
      subst (typeArg classParams methodParams) type ↔ Keeps) :
    (if isNull (ilTypeInstantiate ct synthetic classParams methodParams type) = true then .invalid
      else build (ilTypeInstantiate ct synthetic classParams methodParams type) 0 0) =
        build (subst (typeArg classParams methodParams) type) size lowBound ↔
      Keeps ∧ size = 0 ∧ lowBound = 0 := by
  have hbuilt := hinj (ilTypeInstantiate ct synthetic classParams methodParams type)
    (subst (typeArg classParams methodParams) type) 0 size 0 lowBound
  rw [ih, @eq_comm _ 0 size, @eq_comm _ 0 lowBound] at hbuilt
  exact ite_null_eq_iff (hbuild _ _ _) (fun _ => hbuilt) fun h =>
    instantiate_ne_invalid hne hcovers (ih.2 h.1)

mutual

theorem instantiate_eq_subst_iff : ∀ type : ILType,
    Covers (typeArg classParams methodParams) type →
    (ilTypeInstantiate ct synthetic classParams methodParams type =
      subst (typeArg classParams methodParams) type ↔
      KeepsRest ct synthetic (typeArg classParams methodParams) type)
  | .invalid, _ | .primitive _, _ | .class _, _ | .valueType _, _ | .sentinel, _ =>
    iff_of_true rfl trivial
  | .var num, hcovers => by
    refine iff_of_true ?_ trivial
    unfold ilTypeInstantiate
    split_ifs with hnull
    · cases classParams <;> first | rfl | cases hnull
    · rfl
  | .mvar num, hcovers => by
    refine iff_of_true ?_ trivial
    unfold ilTypeInstantiate
    split_ifs with hnull
    · have hmissing : ilTypeGetParamWithPrefixes methodParams (num + 1) = .invalid := by
        cases methodParams <;> first | rfl | cases hnull
      exact absurd hmissing (hcovers _ (List.mem_singleton_self _))
    · rfl
  | .byRef type, hcovers =>
    instantiate_node_iff .byRef type hcovers (fun _ _ => by simp) (fun _ => by simp)
      (instantiate_eq_subst_iff type hcovers)
  | .ptr type, hcovers =>
    instantiate_node_iff .ptr type hcovers (fun _ _ => by simp) (fun _ => by simp)
      (instantiate_eq_subst_iff type hcovers)
  | .pinned type, hcovers =>
    instantiate_node_iff .pinned type hcovers (fun _ _ => by simp) (fun _ => by simp)
      (instantiate_eq_subst_iff type hcovers)
  | .cmodReqd info type, hcovers =>
    instantiate_modifier_iff (.cmodReqd info) (fun _ _ => by simp) (instantiate_eq_subst_iff type hcovers)
  | .cmodOpt info type, hcovers =>
    instantiate_modifier_iff (.cmodOpt info) (fun _ _ => by simp) (instantiate_eq_subst_iff type hcovers)
  | .array type size lowBound, hcovers => by
    have ih := instantiate_eq_subst_iff type hcovers
    unfold KeepsRest ilTypeInstantiate
    cases hneeds : ilTypeNeedsInstantiation type with
    | true =>
      have houter : ilTypeNeedsInstantiation (.array type size lowBound) = true := hneeds
      rw [if_pos houter, eq_self, true_imp_iff]
      exact instantiate_dimension_iff .array hcovers (ne_invalid_of_needs hneeds) (by simp) (by simp) ih
    | false =>
      have houter : ¬ ilTypeNeedsInstantiation (.array type size lowBound) = true :=
        Bool.eq_false_iff.1 hneeds
      rw [if_neg houter, subst, ILType.array.injEq, iff_of_not_needs ih hneeds]
      simp
  | .arrayContinue type size lowBound, hcovers => by
    have ih := instantiate_eq_subst_iff type hcovers
    unfold KeepsRest
    cases hneeds : elemNeedsInstantiation type with
    | true =>
      rw [instantiate_arrayContinue size lowBound hneeds, if_pos rfl]
      exact instantiate_dimension_iff .arrayContinue hcovers
        (ne_invalid_of_needs (needs_of_elemNeeds hneeds).1) (by simp) (by simp) ih
    | false =>
      have houter : ilTypeNeedsInstantiation (.arrayContinue type size lowBound) = false := hneeds
      rw [instantiate_of_not_needs houter, if_neg Bool.false_ne_true]
      exact fixed_iff
  | .signature kind numGen retType params, hcovers => by
    have hret := List.forall_mem_append.1 hcovers
    have ih := instantiate_eq_subst_iff retType hret.1
    have ihParams : paramsInstantiate ct synthetic classParams methodParams
          (setKind (ilTypeCreateMethod ct synthetic
            (ilTypeInstantiate ct synthetic classParams methodParams retType)) kind) params =
        .signature kind numGen (subst (typeArg classParams methodParams) retType)
          ([] ++ substAll (typeArg classParams methodParams) params) ↔ _ :=
      paramsInstantiate_eq_iff params [] [] rfl hret.2
    rw [toPrimitive_instantiate_iff, ih] at ihParams
    unfold KeepsRest
    cases hneeds : ilTypeNeedsInstantiation (.signature kind numGen retType params) with
    | true =>
      unfold ilTypeInstantiate
      rw [if_pos hneeds, if_pos rfl]
      dsimp only
      split_ifs with hnull
      · have hnull := Bool.and_eq_true_iff.1 hnull
        refine iff_of_false (by simp [subst]) fun h => ?_
        have hne : retType ≠ .invalid := isNull_eq_false_iff.1 (by simpa using hnull.1)
        have hinst := instantiate_ne_invalid hne hret.1 (ih.2 h.2.1.1)
        exact absurd hnull.2 (Bool.eq_false_iff.1 (isNull_eq_false_iff.2 hinst))
      · refine ihParams.trans ?_
        simp only [true_and, and_true, @eq_comm _ 0 numGen, and_assoc]
    | false =>
      rw [instantiate_of_not_needs hneeds, if_neg Bool.false_ne_true]
      exact fixed_iff

theorem paramsInstantiate_eq_iff {kind kind' : ILUInt16} {numGen numGen' : Nat}
    {retType retType' : ILType} : ∀ (params acc acc' : List ILType), acc.length = acc'.length →
    (∀ v ∈ typesVars params, typeArg classParams methodParams v ≠ .invalid) →
    (paramsInstantiate ct synthetic classParams methodParams (.signature kind numGen retType acc)
        params = .signature kind' numGen' retType'
          (acc' ++ substAll (typeArg classParams methodParams) params) ↔
      (kind = kind' ∧ numGen = numGen' ∧ retType = retType' ∧ acc = acc') ∧
        AllKeepRest ct synthetic (typeArg classParams methodParams) params)
  | [], acc, acc', hlength, hcovers => by
    unfold paramsInstantiate substAll AllKeepRest
    simp
  | param :: params, acc, acc', hlength, hcovers => by
    have hcovers := List.forall_mem_append.1 hcovers
    have ih := instantiate_eq_subst_iff param hcovers.1
    have hbuilt : paramsInstantiate ct synthetic classParams methodParams
          (ilTypeAddParam ct synthetic (.signature kind numGen retType acc)
            (ilTypeInstantiate ct synthetic classParams methodParams param)) params =
        .signature kind' numGen' retType' ((acc' ++ [subst (typeArg classParams methodParams) param]) ++
          substAll (typeArg classParams methodParams) params) ↔ _ :=
      paramsInstantiate_eq_iff params _ _ (by simp [hlength]) hcovers.2
    rw [← List.concat_eq_append, ← List.concat_eq_append, List.concat_inj,
      toPrimitive_instantiate_iff, ih] at hbuilt
    rw [List.concat_eq_append, List.append_assoc] at hbuilt
    unfold paramsInstantiate substAll AllKeepRest
    refine ite_null_eq_iff (by simp) (fun hinner => ?_) fun h =>
      instantiate_ne_invalid h.2.1.1 hcovers.1 (ih.2 h.2.1.2.1)
    have hparam : param ≠ .invalid := by
      rintro rfl
      exact hinner rfl
    refine hbuilt.trans ?_
    simp only [ne_eq, hparam, not_false_eq_true, true_and, and_assoc]

end

/-- Instantiation is substitution where nothing gets lost, and only there. -/
theorem ilTypeInstantiate_subst_iff (ct : ClassTable) (synthetic : ClassId → ILType)
    (classParams methodParams type : ILType)
    (hcovers : Covers (typeArg classParams methodParams) type) :
    (ilTypeInstantiate ct synthetic classParams methodParams type =
        subst (typeArg classParams methodParams) type ∧
      ∀ v ∈ typeVars (ilTypeInstantiate ct synthetic classParams methodParams type),
        ∃ w ∈ typeVars type, v ∈ typeVars (typeArg classParams methodParams w)) ↔
      KeepsRest ct synthetic (typeArg classParams methodParams) type := by
  rw [← instantiate_eq_subst_iff type hcovers]
  refine and_iff_left_of_imp fun heq v hv => ?_
  rw [heq] at hv
  exact (mem_typeVars_subst type).1 hv

/-- The class `0` with one type argument, which is `int32`. -/
def withInt32 : ILType := .signature ilTypeComplexWith 0 (.class 0) [.primitive ElemType.i4]

theorem covers_withInt32 {type : ILType} (h : typeVars type = [.var 0]) (methodParams : ILType) :
    Covers (typeArg withInt32 methodParams) type := by
  intro v hv
  rw [h, List.mem_singleton] at hv
  subst hv
  simp [typeArg, withInt32, ilTypeGetParamWithPrefixes, ilTypeIsSignature, ilTypeComplexWith]

theorem ilTypeInstantiate_subst_ptr :
    ilTypeInstantiate noClasses (fun _ => .invalid) withInt32 .invalid (.ptr (.var 0)) =
      subst (typeArg withInt32 .invalid) (.ptr (.var 0)) :=
  ((ilTypeInstantiate_subst_iff noClasses (fun _ => .invalid) withInt32 .invalid
    (.ptr (.var 0)) (covers_withInt32 rfl .invalid)).2 trivial).1

/-- An array of five elements, and a vararg method whose parameter follows the sentinel. -/
theorem ilTypeInstantiate_loses :
    (Covers (typeArg withInt32 .invalid) (.array (.var 0) 5 0) ∧
      ilTypeInstantiate noClasses (fun _ => .invalid) withInt32 .invalid (.array (.var 0) 5 0) ≠
        subst (typeArg withInt32 .invalid) (.array (.var 0) 5 0)) ∧
    Covers (typeArg withInt32 .invalid) (.signature 0x0511 0 ilTypeVoid [.sentinel, .var 0]) ∧
      ilTypeInstantiate noClasses (fun _ => .invalid) withInt32 .invalid
          (.signature 0x0511 0 ilTypeVoid [.sentinel, .var 0]) =
        .signature 0x0511 0 ilTypeVoid [.sentinel, .var 0] ∧
      subst (typeArg withInt32 .invalid) (.signature 0x0511 0 ilTypeVoid [.sentinel, .var 0]) =
        .signature 0x0511 0 ilTypeVoid [.sentinel, .primitive ElemType.i4] := by
  refine ⟨⟨covers_withInt32 rfl _, ?_⟩, covers_withInt32 rfl _, rfl, rfl⟩
  show ILType.array (.primitive ElemType.i4) 0 0 ≠ .array (.primitive ElemType.i4) 5 0
  simp

end Pnet.Image
