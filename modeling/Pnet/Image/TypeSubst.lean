import Pnet.Image.Types

/-! Substitution of types for type variables. -/
namespace Pnet.Image

/-- A variable of a generic class, or of a generic method. -/
inductive TypeVar where
  | var (num : Nat)
  | mvar (num : Nat)
deriving DecidableEq, Repr

def TypeVar.toType : TypeVar → ILType
  | .var num => .var num
  | .mvar num => .mvar num

mutual

def typeVars : ILType → List TypeVar
  | .var num => [.var num]
  | .mvar num => [.mvar num]
  | .byRef type | .ptr type | .pinned type | .cmodReqd _ type | .cmodOpt _ type => typeVars type
  | .array type _ _ | .arrayContinue type _ _ => typeVars type
  | .signature _ _ retType params => typeVars retType ++ typesVars params
  | _ => []

def typesVars : List ILType → List TypeVar
  | [] => []
  | type :: types => typeVars type ++ typesVars types

end

section

variable (arg : TypeVar → ILType)

mutual

/-- Every variable replaced by its argument, and nothing else changed. -/
def subst : ILType → ILType
  | .var num => arg (.var num)
  | .mvar num => arg (.mvar num)
  | .byRef type => .byRef (subst type)
  | .ptr type => .ptr (subst type)
  | .pinned type => .pinned (subst type)
  | .array type size lowBound => .array (subst type) size lowBound
  | .arrayContinue type size lowBound => .arrayContinue (subst type) size lowBound
  | .cmodReqd info type => .cmodReqd info (subst type)
  | .cmodOpt info type => .cmodOpt info (subst type)
  | .signature kind numGen retType params => .signature kind numGen (subst retType) (substAll params)
  | type => type

def substAll : List ILType → List ILType
  | [] => []
  | type :: types => subst type :: substAll types

end

end

variable {arg : TypeVar → ILType}

mutual

/-- A type stays as it is when its variables stand for themselves, and only then. -/
theorem subst_eq_self_iff : ∀ type : ILType,
    subst arg type = type ↔ ∀ v ∈ typeVars type, arg v = v.toType
  | .var num | .mvar num => by
    simp [subst, typeVars, TypeVar.toType]
  | .invalid | .primitive _ | .class _ | .valueType _ | .sentinel =>
    iff_of_true rfl fun _ hv => absurd hv List.not_mem_nil
  | .byRef type => by
    rw [subst, ILType.byRef.injEq]
    exact subst_eq_self_iff type
  | .ptr type => by
    rw [subst, ILType.ptr.injEq]
    exact subst_eq_self_iff type
  | .pinned type => by
    rw [subst, ILType.pinned.injEq]
    exact subst_eq_self_iff type
  | .array type size lowBound => by
    rw [subst, ILType.array.injEq, and_iff_left ⟨rfl, rfl⟩]
    exact subst_eq_self_iff type
  | .arrayContinue type size lowBound => by
    rw [subst, ILType.arrayContinue.injEq, and_iff_left ⟨rfl, rfl⟩]
    exact subst_eq_self_iff type
  | .cmodReqd info type => by
    rw [subst, ILType.cmodReqd.injEq, and_iff_right rfl]
    exact subst_eq_self_iff type
  | .cmodOpt info type => by
    rw [subst, ILType.cmodOpt.injEq, and_iff_right rfl]
    exact subst_eq_self_iff type
  | .signature kind numGen retType params => by
    rw [subst, ILType.signature.injEq, and_iff_right rfl, and_iff_right rfl, typeVars,
      List.forall_mem_append, subst_eq_self_iff retType, substAll_eq_self_iff params]

theorem substAll_eq_self_iff : ∀ types : List ILType,
    substAll arg types = types ↔ ∀ v ∈ typesVars types, arg v = v.toType
  | [] => iff_of_true rfl fun _ hv => absurd hv List.not_mem_nil
  | type :: types => by
    rw [substAll, List.cons.injEq, typesVars, List.forall_mem_append, subst_eq_self_iff type,
      substAll_eq_self_iff types]

end

mutual

/-- The variables after a substitution are those of the arguments. -/
theorem mem_typeVars_subst {v : TypeVar} : ∀ type : ILType,
    v ∈ typeVars (subst arg type) ↔ ∃ w ∈ typeVars type, v ∈ typeVars (arg w)
  | .var num | .mvar num => by
    simp [subst, typeVars]
  | .invalid | .primitive _ | .class _ | .valueType _ | .sentinel => by
    simp [subst, typeVars]
  | .byRef type | .ptr type | .pinned type => mem_typeVars_subst type
  | .array type _ _ | .arrayContinue type _ _ => mem_typeVars_subst type
  | .cmodReqd _ type | .cmodOpt _ type => mem_typeVars_subst type
  | .signature kind numGen retType params => by
    rw [subst, typeVars, typeVars, List.mem_append, mem_typeVars_subst retType,
      mem_typesVars_substAll params]
    simp only [List.mem_append, or_and_right, exists_or]

theorem mem_typesVars_substAll {v : TypeVar} : ∀ types : List ILType,
    v ∈ typesVars (substAll arg types) ↔ ∃ w ∈ typesVars types, v ∈ typeVars (arg w)
  | [] => by
    simp [substAll, typesVars]
  | type :: types => by
    rw [substAll, typesVars, typesVars, List.mem_append, mem_typeVars_subst type,
      mem_typesVars_substAll types]
    simp only [List.mem_append, or_and_right, exists_or]

end

theorem subst_ne_invalid {type : ILType} (h : type ≠ .invalid)
    (harg : ∀ v ∈ typeVars type, arg v ≠ .invalid) : subst arg type ≠ .invalid := by
  cases type with
  | invalid => exact absurd rfl h
  | var num => exact harg _ (List.mem_singleton_self _)
  | mvar num => exact harg _ (List.mem_singleton_self _)
  | _ => simp [subst]

end Pnet.Image
