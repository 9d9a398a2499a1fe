import Mathlib.Algebra.BigOperators.Ring.List
import Pnet.Image.Types
import Pnet.Lib.Table

/-! Multi-dimensional arrays, `engine/lib_array.c`: the two constructors, and the ways to the
address of an element. Allocation is taken to succeed; `data` is the address that it
gives, of `w` bits. -/
namespace Pnet.Engine
open Pnet.Image

def ilMaxInt32 : ILUInt64 := 0x7FFFFFFF

/-! ### The type of an array -/

/-- What stands below the dimensions of an array type, and how many there are. -/
inductive IsArrayType : ILType → Prop where
  | array (elemType : ILType) (size lowBound : Int) : IsArrayType (.array elemType size lowBound)
  | continue {type : ILType} (size lowBound : Int) (h : IsArrayType type) :
    IsArrayType (.arrayContinue type size lowBound)

def ilTypeInt32 : ILType := .primitive ElemType.i4

/-- The rank and the element type, as `ConstructMArrayHeader` finds them. -/
def headerType : ILType → Nat × ILType
  | .arrayContinue elemType _ _ => ((headerType elemType).1 + 1, (headerType elemType).2)
  | .array elemType _ _ => (1, elemType)
  -- Shouldn't happen, but do something sane anyway
  | _ => (1, ilTypeInt32)

def ilTypeGetElemType : ILType → ILType
  | .arrayContinue elemType _ _ => ilTypeGetElemType elemType
  | .array elemType _ _ => elemType
  | _ => .invalid

/-! ### Construction -/

structure MArrayBounds where
  lower : ILInt32
  size : ILInt32
  multiplier : ILInt32

/-- `synType` is the type of the class of the array, `dataSize` what is allocated for the
elements; the rank is the number of the bounds. -/
structure SystemMArray (w : Nat) where
  synType : ILType
  elemSize : ILInt32
  bounds : List MArrayBounds
  data : BitVec w
  dataSize : Nat

inductive MArrayError where
  | argRange (name resource : String)
  | outOfMemory
deriving DecidableEq, Repr

/-- Fill in the array header with the multiplier values, from the last dimension on. -/
def setMultipliers : List (ILInt32 × ILInt32) → List MArrayBounds × ILInt32
  | [] => ([], 1)
  | (lower, size) :: dims =>
    let (bounds, multiplier) := setMultipliers dims
    (⟨lower, size, multiplier⟩ :: bounds, multiplier * size)

/-- The loop of `ConstructMArrayData` over the dimensions. -/
def sizeInElems : List MArrayBounds → Nat → ILUInt64 → Except MArrayError ILUInt64
  | [], _, sizeInBytes => .ok sizeInBytes
  | bound :: bounds, dim, sizeInBytes =>
    if bound.size.toInt < 0 then
      .error (.argRange s!"length{dim}" "ArgRange_NonNegative")
    else
      let sizeInBytes := sizeInBytes * bound.size.signExtend 64
      if ilMaxInt32 < sizeInBytes then .error .outOfMemory
      else sizeInElems bounds (dim + 1) sizeInBytes

variable {w : Nat}

def constructMArrayData (synType : ILType) (elemSize : ILInt32) (bounds : List MArrayBounds)
    (data : BitVec w) : Except MArrayError (SystemMArray w) :=
  match sizeInElems bounds 0 1 with
  | .error error => .error error
  | .ok sizeInBytes =>
    let sizeInBytes := sizeInBytes * elemSize.signExtend 64
    if ilMaxInt32 < sizeInBytes then .error .outOfMemory
    else .ok ⟨synType, elemSize, bounds, data, sizeInBytes.toNat⟩

section Constructors

variable (ilSizeOfType : ILType → ILUInt32)

/-- `System_MArray_ctor_2` in the main; `dims` are the lower bound and the size of each
dimension. -/
def constructMArray (synType : ILType) (dims : List (ILInt32 × ILInt32)) (data : BitVec w) :
    Except MArrayError (SystemMArray w) :=
  constructMArrayData synType (ilSizeOfType (headerType synType).2) (setMultipliers dims).1 data

/-- `public T[,,,](int size1, int size2, ..., int sizeN)` -/
def systemMArrayCtor1 (synType : ILType)
    (sizes : Vector ILInt32 (headerType synType).1) (data : BitVec w) :
    Except MArrayError (SystemMArray w) :=
  constructMArray ilSizeOfType synType (sizes.toList.map fun size => (0, size)) data

/-- `public T[,,,](int low1, int size1, ..., int lowN, int sizeN)` -/
def systemMArrayCtor2 (synType : ILType)
    (dims : Vector (ILInt32 × ILInt32) (headerType synType).1) (data : BitVec w) :
    Except MArrayError (SystemMArray w) :=
  constructMArray ilSizeOfType synType dims.toList data

end Constructors

/-! ### Addresses -/

/-- The index in a dimension that counts from zero; `none` is
`System.IndexOutOfRangeException`. -/
def checkIndex (bound : MArrayBounds) (arg : ILInt32) : Option ILInt32 :=
  let index := arg - bound.lower
  if bound.size ≤ index then none else some index

/-- The loop of `GetElemAddress` over the dimensions. -/
def elemOffset : List MArrayBounds → List ILInt32 → ILInt32 → Option ILInt32
  | [], _, offset => some offset
  | _ :: _, [], _ => none
  | bound :: bounds, arg :: args, offset =>
    match checkIndex bound arg with
    | none => none
    | some index => elemOffset bounds args (offset + index * bound.multiplier)

def getElemAddress (this : SystemMArray w) (args : List ILInt32) : Option (BitVec w) :=
  (elemOffset this.bounds args 0).map fun offset =>
    this.data + (offset * this.elemSize).signExtend w

/-- For arrays of two dimensions. -/
def get2ElemAddress (this : SystemMArray w) (index1 index2 : ILInt32) : Option (BitVec w) :=
  match this.bounds with
  | bound1 :: bound2 :: _ =>
    match checkIndex bound1 index1, checkIndex bound2 index2 with
    | some index1, some index2 =>
      let offset : ILInt32 := index1 * bound1.multiplier + index2
      some (this.data + (offset * this.elemSize).signExtend w)
    | _, _ => none
  | _ => none

section Reflection

variable (ilSizeOfType : ILType → ILUInt32)

/-- The element that `_IL_Array_Get_iii` boxes or loads, in a multi-dimensional array. -/
def ilArrayGetIii (this : SystemMArray w) (index1 index2 index3 : ILInt32) : Option (BitVec w) :=
  let elemSize := ilSizeOfType (ilTypeGetElemType this.synType)
  match this.bounds with
  | [] => none
  | [bound1] =>
    -- Single-dimensional array
    (checkIndex bound1 index1).map fun index => this.data + (index * elemSize).setWidth w
  | [bound1, bound2] =>
    -- Double-dimensional array
    (checkIndex bound1 index1).bind fun index1 =>
      (checkIndex bound2 index2).map fun index2 =>
        let offset : ILUInt32 := index1 * bound1.multiplier + index2
        this.data + (offset * elemSize).setWidth w
  | bound1 :: bound2 :: bound3 :: _ =>
    -- Triple-dimensional array
    (checkIndex bound1 index1).bind fun index1 =>
      (checkIndex bound2 index2).bind fun index2 =>
        (checkIndex bound3 index3).map fun index3 =>
          let offset : ILUInt32 := index1 * bound1.multiplier + index2 * bound2.multiplier + index3
          this.data + (offset * elemSize).setWidth w

/-- The element that `_IL_Array_Get_ai` boxes or loads. -/
def ilArrayGetAi (this : SystemMArray w) (indices : List ILInt32) : Option (BitVec w) :=
  match indices with
  -- Handle the single-dimensional case specially
  | [index] => ilArrayGetIii ilSizeOfType this index 0 0
  | _ =>
    let elemSize := ilSizeOfType (ilTypeGetElemType this.synType)
    (elemOffset this.bounds indices 0).map fun (offset : ILUInt32) =>
      this.data + (offset * elemSize).setWidth w

end Reflection

end Pnet.Engine

/-! ### Elements

Where the elements of a multi-dimensional array lie. The places of the elements are the
numbers with the sizes as radices, which the constructors keep below `IL_MAX_INT32`; only
the test of an index wraps around. -/
namespace Pnet.Engine
open Pnet.Image Pnet.Lib

variable {w : Nat}

/-! ### What should hold -/

/-- The index is one of a dimension. -/
def InBounds (bound : MArrayBounds) (arg : ILInt32) : Prop :=
  bound.lower.toInt ≤ arg.toInt ∧ arg.toInt < bound.lower.toInt + bound.size.toInt

/-- What is to be said of an array and the ways to its elements. -/
structure MArraySound (ilSizeOfType : ILType → ILUInt32) (this : SystemMArray w) : Prop where
  accepts : ∀ args, args.length = this.bounds.length →
    ((getElemAddress this args).isSome = true ↔ List.Forall₂ InBounds this.bounds args)
  places : ∃ place : List ILInt32 → Nat, ∀ args address, args.length = this.bounds.length →
    getElemAddress this args = some address →
    address = this.data + BitVec.ofNat w (place args) ∧
    place args + this.elemSize.toNat ≤ this.dataSize ∧
    ∀ args' address', args'.length = this.bounds.length →
      getElemAddress this args' = some address' → args ≠ args' →
      place args + this.elemSize.toNat ≤ place args' ∨
        place args' + this.elemSize.toNat ≤ place args
  fastPath : this.bounds.length = 2 → ∀ index1 index2,
    get2ElemAddress this index1 index2 = getElemAddress this [index1, index2]
  getIii : this.bounds.length ≤ 3 → ∀ index1 index2 index3,
    ilArrayGetIii ilSizeOfType this index1 index2 index3 =
      getElemAddress this ([index1, index2, index3].take this.bounds.length)
  getAi : ∀ indices, indices.length = this.bounds.length →
    ilArrayGetAi ilSizeOfType this indices = getElemAddress this indices

/-- The array is empty, or the indices of each dimension are all numbers of 32 bits. -/
def BoundsFit (dims : List (ILInt32 × ILInt32)) : Prop :=
  (∃ dim ∈ dims, dim.2 = 0) ∨ ∀ dim ∈ dims, dim.1.toInt + dim.2.toInt ≤ 2 ^ 31

/-! ### The multipliers -/

def sizesOf (bounds : List MArrayBounds) : List Nat := bounds.map fun bound => bound.size.toNat

/-- Each multiplier is the number of elements below it. -/
def Exact : List MArrayBounds → Prop
  | [] => True
  | bound :: bounds => bound.multiplier.toNat = (sizesOf bounds).prod ∧ Exact bounds

theorem map_setMultipliers (dims : List (ILInt32 × ILInt32)) :
    (setMultipliers dims).1.map (fun bound => (bound.lower, bound.size)) = dims := by
  induction dims with
  | nil => rfl
  | cons dim dims ih => simp [setMultipliers, ih]

theorem sizesOf_setMultipliers (dims : List (ILInt32 × ILInt32)) :
    sizesOf (setMultipliers dims).1 = dims.map fun dim => dim.2.toNat := by
  conv_rhs => rw [← map_setMultipliers dims]
  simp [sizesOf]

theorem toNat_setMultipliers (dims : List (ILInt32 × ILInt32)) :
    (setMultipliers dims).2.toNat = (dims.map fun dim => dim.2.toNat).prod % 2 ^ 32 := by
  induction dims with
  | nil => rfl
  | cons dim dims ih =>
    simp only [setMultipliers, BitVec.toNat_mul, ih, List.map_cons, List.prod_cons]
    rw [Nat.mod_mul_mod, Nat.mul_comm]

theorem exact_setMultipliers {dims : List (ILInt32 × ILInt32)}
    (hpos : ∀ dim ∈ dims, 0 < dim.2.toNat)
    (hprod : (dims.map fun dim => dim.2.toNat).prod < 2 ^ 32) : Exact (setMultipliers dims).1 := by
  induction dims with
  | nil => trivial
  | cons dim dims ih =>
    obtain ⟨hdim, hrest⟩ := List.forall_mem_cons.1 hpos
    rw [List.map_cons, List.prod_cons] at hprod
    have hle : (dims.map fun dim => dim.2.toNat).prod ≤
        dim.2.toNat * (dims.map fun dim => dim.2.toNat).prod := Nat.le_mul_of_pos_left _ hdim
    refine ⟨?_, ih hrest (hle.trans_lt hprod)⟩
    rw [sizesOf_setMultipliers]
    exact (toNat_setMultipliers dims).trans (Nat.mod_eq_of_lt (hle.trans_lt hprod))

/-! ### The size of the data -/

theorem toNat_signExtend_of_nonneg {size : ILInt32} (h : 0 ≤ size.toInt) :
    (size.signExtend 64).toNat = size.toNat := by
  have hmsb : size.msb = false := by
    rw [BitVec.msb_eq_toInt]
    simp only [decide_eq_false_iff_not, not_lt]
    exact h
  rw [BitVec.signExtend_eq_setWidth_of_msb_false hmsb, BitVec.toNat_setWidth]
  exact Nat.mod_eq_of_lt (size.isLt.trans (by decide))

/-- A negative number of bytes for each element is too much, not too little. -/
theorem lt_mul_signExtend {count : Nat} {elemSize : ILInt32} (hpos : 0 < count)
    (hmax : count ≤ 0x7FFFFFFF) (hneg : elemSize.toInt < 0) :
    0x7FFFFFFF < count * (elemSize.signExtend 64).toNat % 2 ^ 64 := by
  have hmsb : elemSize.msb = true := by
    rw [BitVec.msb_eq_toInt]
    exact decide_eq_true hneg
  have hge : 2 ^ 31 ≤ elemSize.toNat := by
    have hval := BitVec.msb_eq_decide elemSize
    rw [hmsb] at hval
    exact of_decide_eq_true hval.symm
  have hlt := elemSize.isLt
  obtain ⟨less, hless⟩ : ∃ less, elemSize.toNat + less = 2 ^ 32 := ⟨2 ^ 32 - elemSize.toNat, by omega⟩
  have hext : (elemSize.signExtend 64).toNat + less = 2 ^ 64 := by
    rw [BitVec.toNat_signExtend, hmsb, BitVec.toNat_setWidth]
    rw [Nat.mod_eq_of_lt (hlt.trans (by decide))]
    simp only [if_true]
    omega
  have hsum : count * (elemSize.signExtend 64).toNat + count * less = count * 2 ^ 64 := by
    rw [← Nat.mul_add, hext]
  have hcount : count * less ≤ 0x7FFFFFFF * 2 ^ 31 := Nat.mul_le_mul hmax (by omega)
  have hone : 1 * 1 ≤ count * less := Nat.mul_le_mul hpos (by omega)
  generalize count * (elemSize.signExtend 64).toNat = bytes at hsum ⊢
  generalize count * less = missing at hsum hcount hone
  omega

theorem sizeInElems_ok {bounds : List MArrayBounds} {dim : Nat} {start total : ILUInt64}
    (h : sizeInElems bounds dim start = .ok total) (hstart : start.toNat ≤ 0x7FFFFFFF) :
    (∀ bound ∈ bounds, 0 ≤ bound.size.toInt) ∧
      total.toNat = start.toNat * (sizesOf bounds).prod ∧ total.toNat ≤ 0x7FFFFFFF := by
  induction bounds generalizing dim start with
  | nil =>
    obtain rfl := Except.ok.inj h
    exact ⟨by simp, by simp [sizesOf], hstart⟩
  | cons bound bounds ih =>
    unfold sizeInElems at h
    dsimp only at h
    split_ifs at h with hneg hlarge
    have hnonneg : 0 ≤ bound.size.toInt := by omega
    have hsize := toNat_signExtend_of_nonneg hnonneg
    have hlt := bound.size.isLt
    have hmul : (start * bound.size.signExtend 64).toNat = start.toNat * bound.size.toNat := by
      rw [BitVec.toNat_mul, hsize]
      apply Nat.mod_eq_of_lt
      calc start.toNat * bound.size.toNat ≤ 0x7FFFFFFF * 2 ^ 32 := Nat.mul_le_mul hstart hlt.le
        _ < 2 ^ 64 := by decide
    have hle : (start * bound.size.signExtend 64).toNat ≤ 0x7FFFFFFF := by
      rw [ilMaxInt32, BitVec.not_lt, BitVec.le_def] at hlarge
      exact hlarge
    obtain ⟨hrest, htotal, hmax⟩ := ih h hle
    refine ⟨List.forall_mem_cons.2 ⟨hnonneg, hrest⟩, ?_, hmax⟩
    rw [htotal, hmul, sizesOf, sizesOf, List.map_cons, List.prod_cons, Nat.mul_assoc]

/-- What the constructors make of an array that they accept. -/
structure Built (ilSizeOfType : ILType → ILUInt32) (synType : ILType)
    (dims : List (ILInt32 × ILInt32)) (this : SystemMArray w) : Prop where
  synType_eq : this.synType = synType
  elemSize_eq : this.elemSize = ilSizeOfType (headerType synType).2
  bounds_eq : this.bounds = (setMultipliers dims).1
  nonneg : ∀ bound ∈ this.bounds, 0 ≤ bound.size.toInt
  prod_le : (sizesOf this.bounds).prod ≤ 0x7FFFFFFF
  dataSize_eq : 0 < (sizesOf this.bounds).prod →
    this.dataSize = (sizesOf this.bounds).prod * this.elemSize.toNat
  dataSize_le : this.dataSize ≤ 0x7FFFFFFF

theorem built_of_ok {ilSizeOfType : ILType → ILUInt32} {synType : ILType}
    {dims : List (ILInt32 × ILInt32)} {data : BitVec w} {this : SystemMArray w}
    (h : constructMArray ilSizeOfType synType dims data = .ok this) :
    Built ilSizeOfType synType dims this := by
  unfold constructMArray constructMArrayData at h
  cases hsize : sizeInElems (setMultipliers dims).1 0 1 with
  | error error =>
    rw [hsize] at h
    cases h
  | ok total =>
    obtain ⟨hnonneg, htotal, hmax⟩ := sizeInElems_ok hsize (by decide)
    rw [hsize] at h
    dsimp only at h
    split_ifs at h with hlarge
    obtain rfl := Except.ok.inj h
    rw [ilMaxInt32, BitVec.not_lt, BitVec.le_def] at hlarge
    have hone : (1 : ILUInt64).toNat = 1 := rfl
    rw [hone, Nat.one_mul] at htotal
    refine ⟨rfl, rfl, rfl, hnonneg, htotal ▸ hmax, fun hpos => ?_, hlarge⟩
    rw [← htotal] at hpos ⊢
    rw [BitVec.toNat_mul] at hlarge ⊢
    generalize ilSizeOfType (headerType synType).2 = elemSize at hlarge ⊢
    -- a negative size would give far more than the maximum
    have hsign : 0 ≤ (elemSize : ILInt32).toInt := by
      by_contra hneg
      exact absurd hlarge (not_le.2 (lt_mul_signExtend hpos hmax (not_le.1 hneg)))
    rw [toNat_signExtend_of_nonneg hsign]
    apply Nat.mod_eq_of_lt
    calc total.toNat * elemSize.toNat ≤ 0x7FFFFFFF * 2 ^ 32 := Nat.mul_le_mul hmax elemSize.isLt.le
      _ < 2 ^ 64 := by decide

/-! ### Indices and places -/

/-- The indices that count from zero. -/
def digitsOf : List MArrayBounds → List ILInt32 → List Nat
  | bound :: bounds, arg :: args => (arg - bound.lower).toNat :: digitsOf bounds args
  | _, _ => []

/-- The indices pass all tests. -/
abbrev Passes (bounds : List MArrayBounds) (args : List ILInt32) : Prop :=
  MixedRadix.Valid (sizesOf bounds) (digitsOf bounds args)

theorem checkIndex_eq (bound : MArrayBounds) (arg : ILInt32) :
    checkIndex bound arg =
      if (arg - bound.lower).toNat < bound.size.toNat then some (arg - bound.lower) else none := by
  unfold checkIndex
  simp only [BitVec.le_def]
  by_cases h : (arg - bound.lower).toNat < bound.size.toNat
  · rw [if_pos h, if_neg (not_le.2 h)]
  · rw [if_neg h, if_pos (not_lt.1 h)]

theorem passes_cons {bound : MArrayBounds} {bounds : List MArrayBounds} {arg : ILInt32}
    {args : List ILInt32} : Passes (bound :: bounds) (arg :: args) ↔
      (arg - bound.lower).toNat < bound.size.toNat ∧ Passes bounds args := by
  simp [Passes, sizesOf, digitsOf]

theorem isSome_elemOffset {bounds : List MArrayBounds} {args : List ILInt32}
    (hlength : args.length = bounds.length) (offset : ILInt32) :
    (elemOffset bounds args offset).isSome = true ↔ Passes bounds args := by
  induction bounds generalizing args offset with
  | nil =>
    obtain rfl := List.length_eq_zero_iff.1 hlength
    simp [elemOffset, Passes, sizesOf, digitsOf]
  | cons bound bounds ih =>
    cases args with
    | nil => cases hlength
    | cons arg args =>
      rw [passes_cons, elemOffset, checkIndex_eq]
      split_ifs with h
      · rw [and_iff_right h]
        exact ih (Nat.succ.inj hlength) _
      · exact iff_of_false (by simp) fun hand => h hand.1

theorem elemOffset_eq {bounds : List MArrayBounds} (hexact : Exact bounds) {args : List ILInt32}
    (hpasses : Passes bounds args) (offset : ILInt32) :
    elemOffset bounds args offset =
      some (offset + BitVec.ofNat 32 (MixedRadix.place (sizesOf bounds) (digitsOf bounds args))) := by
  induction bounds generalizing args offset with
  | nil => simp [elemOffset, sizesOf, digitsOf]
  | cons bound bounds ih =>
    cases args with
    | nil => cases hpasses
    | cons arg args =>
      obtain ⟨hindex, hrest⟩ := passes_cons.1 hpasses
      obtain ⟨hmultiplier, hexact⟩ := hexact
      have hmul : (arg - bound.lower) * bound.multiplier =
          BitVec.ofNat 32 ((arg - bound.lower).toNat * (sizesOf bounds).prod) := by
        rw [← hmultiplier, BitVec.ofNat_mul, BitVec.ofNat_toNat, BitVec.ofNat_toNat,
          BitVec.setWidth_eq, BitVec.setWidth_eq]
      rw [elemOffset, checkIndex_eq, if_pos hindex]
      dsimp only
      rw [ih hexact hrest, hmul, BitVec.add_assoc, ← BitVec.ofNat_add]
      rfl

theorem digitsOf_inj {bounds : List MArrayBounds} {args args' : List ILInt32}
    (hlength : args.length = bounds.length) (hlength' : args'.length = bounds.length)
    (h : digitsOf bounds args = digitsOf bounds args') : args = args' := by
  induction bounds generalizing args args' with
  | nil => rw [List.length_eq_zero_iff.1 hlength, List.length_eq_zero_iff.1 hlength']
  | cons bound bounds ih =>
    cases args with
    | nil => cases hlength
    | cons arg args =>
      cases args' with
      | nil => cases hlength'
      | cons arg' args' =>
        obtain ⟨hhead, htail⟩ := List.cons.inj h
        have harg : arg = arg' := by
          have hsub := BitVec.eq_of_toNat_eq hhead
          exact (BitVec.sub_left_inj ..).1 hsub
        rw [harg, ih (Nat.succ.inj hlength) (Nat.succ.inj hlength') htail]

/-! ### Tests and bounds -/

theorem passes_iff_inBounds {bound : MArrayBounds} (hsize : 0 ≤ bound.size.toInt)
    (hfit : bound.lower.toInt + bound.size.toInt ≤ 2 ^ 31) (arg : ILInt32) :
    (arg - bound.lower).toNat < bound.size.toNat ↔ InBounds bound arg := by
  unfold InBounds
  have hsub := BitVec.toNat_sub arg bound.lower
  have h₁ := BitVec.toInt_eq_toNat_cond arg
  have h₂ := BitVec.toInt_eq_toNat_cond bound.lower
  have h₃ := BitVec.toInt_eq_toNat_cond bound.size
  have hlt₁ := arg.isLt
  have hlt₂ := bound.lower.isLt
  have hlt₃ := bound.size.isLt
  split_ifs at h₁ h₂ h₃ <;> omega

/-- The least number of 32 bits is taken for an index that is too large. -/
theorem intMin_passes {bound : MArrayBounds} (hsize : 0 ≤ bound.size.toInt)
    (hfit : ¬ bound.lower.toInt + bound.size.toInt ≤ 2 ^ 31) :
    (BitVec.intMin 32 - bound.lower).toNat < bound.size.toNat ∧
      ¬ InBounds bound (BitVec.intMin 32) := by
  unfold InBounds
  have hsub := BitVec.toNat_sub (BitVec.intMin 32) bound.lower
  have hmin : (BitVec.intMin 32).toNat = 2 ^ 31 := rfl
  have hmin' : (BitVec.intMin 32).toInt = -2 ^ 31 := rfl
  have h₂ := BitVec.toInt_eq_toNat_cond bound.lower
  have h₃ := BitVec.toInt_eq_toNat_cond bound.size
  have hlt₂ := bound.lower.isLt
  have hlt₃ := bound.size.isLt
  rw [hmin']
  rw [hmin] at hsub
  split_ifs at h₂ h₃ <;> omega

/-! ### The elements of an array -/

section Elements

variable {ilSizeOfType : ILType → ILUInt32} {synType : ILType}
  {dims : List (ILInt32 × ILInt32)} {this : SystemMArray w}
  (h : Built ilSizeOfType synType dims this) {args : List ILInt32}
include h

theorem Built.exact (hpos : 0 < (sizesOf this.bounds).prod) : Exact this.bounds := by
  have hle := h.prod_le
  rw [h.bounds_eq, sizesOf_setMultipliers] at hpos hle
  rw [h.bounds_eq]
  apply exact_setMultipliers
  · intro dim hdim
    apply Nat.pos_of_ne_zero
    intro hzero
    exact hpos.ne' (List.prod_eq_zero (List.mem_map.2 ⟨dim, hdim, hzero⟩))
  · omega

/-- The offset of an element in bytes. -/
theorem Built.offset (hpasses : Passes this.bounds args) :
    ∃ place, place = MixedRadix.place (sizesOf this.bounds) (digitsOf this.bounds args) ∧
      elemOffset this.bounds args 0 = some (BitVec.ofNat 32 place) ∧
      (BitVec.ofNat 32 place * this.elemSize).toNat = place * this.elemSize.toNat ∧
      place * this.elemSize.toNat + this.elemSize.toNat ≤ this.dataSize ∧
      (BitVec.ofNat 32 place * this.elemSize).msb = false := by
  have hlt := MixedRadix.place_lt hpasses
  have hpos := MixedRadix.prod_pos hpasses
  have hoffset := elemOffset_eq (h.exact hpos) hpasses 0
  generalize MixedRadix.place (sizesOf this.bounds) (digitsOf this.bounds args) = place
    at hlt hoffset
  refine ⟨place, rfl, ?_, ?_⟩
  · simpa using hoffset
  have hle := h.prod_le
  have hend : place * this.elemSize.toNat + this.elemSize.toNat ≤ this.dataSize := by
    rw [h.dataSize_eq hpos, ← Nat.succ_mul]
    exact Nat.mul_le_mul_right _ hlt
  have hmax := h.dataSize_le
  have hmul : (BitVec.ofNat 32 place * this.elemSize).toNat = place * this.elemSize.toNat := by
    rw [BitVec.toNat_mul, BitVec.toNat_ofNat, Nat.mod_eq_of_lt (a := place) (by omega)]
    apply Nat.mod_eq_of_lt
    omega
  refine ⟨hmul, hend, ?_⟩
  rw [BitVec.msb_eq_decide, hmul]
  simp only [decide_eq_false_iff_not, not_le]
  omega

theorem Built.getElemAddress_eq (hpasses : Passes this.bounds args) :
    getElemAddress this args = some (this.data + BitVec.ofNat w
      (MixedRadix.place (sizesOf this.bounds) (digitsOf this.bounds args) *
        this.elemSize.toNat)) := by
  obtain ⟨place, rfl, hoffset, hmul, _, hmsb⟩ := h.offset hpasses
  rw [getElemAddress, hoffset, Option.map_some, BitVec.signExtend_eq_setWidth_of_msb_false hmsb,
    ← hmul]
  congr 2
  rw [← BitVec.ofNat_toNat]

omit h in
theorem isSome_getElemAddress (hlength : args.length = this.bounds.length) :
    (getElemAddress this args).isSome = true ↔ Passes this.bounds args := by
  rw [getElemAddress, Option.isSome_map, isSome_elemOffset hlength]

theorem Built.places : ∃ place : List ILInt32 → Nat, ∀ args address,
    args.length = this.bounds.length → getElemAddress this args = some address →
    address = this.data + BitVec.ofNat w (place args) ∧
    place args + this.elemSize.toNat ≤ this.dataSize ∧
    ∀ args' address', args'.length = this.bounds.length →
      getElemAddress this args' = some address' → args ≠ args' →
      place args + this.elemSize.toNat ≤ place args' ∨
        place args' + this.elemSize.toNat ≤ place args := by
  refine ⟨fun args => MixedRadix.place (sizesOf this.bounds) (digitsOf this.bounds args) *
    this.elemSize.toNat, fun args address hlength haddress => ?_⟩
  have hpasses : Passes this.bounds args := by
    rw [← isSome_getElemAddress hlength, haddress]
    rfl
  refine ⟨?_, ?_, fun args' address' hlength' haddress' hne => ?_⟩
  · rw [h.getElemAddress_eq hpasses] at haddress
    exact (Option.some.inj haddress).symm
  · obtain ⟨place, rfl, _, _, hend, _⟩ := h.offset hpasses
    exact hend
  · have hpasses' : Passes this.bounds args' := by
      rw [← isSome_getElemAddress hlength', haddress']
      rfl
    have hplaces : MixedRadix.place (sizesOf this.bounds) (digitsOf this.bounds args) ≠
        MixedRadix.place (sizesOf this.bounds) (digitsOf this.bounds args') := by
      intro heq
      exact hne (digitsOf_inj hlength hlength' (MixedRadix.place_inj hpasses hpasses' heq))
    rw [← Nat.succ_mul, ← Nat.succ_mul]
    cases Nat.lt_or_gt_of_ne hplaces with
    | inl hlt => exact .inl (Nat.mul_le_mul_right _ hlt)
    | inr hgt => exact .inr (Nat.mul_le_mul_right _ hgt)

/-- With unsigned arithmetic the address is the same. -/
theorem Built.getElemAddress_unsigned (hlength : args.length = this.bounds.length) :
    getElemAddress this args = (elemOffset this.bounds args 0).map fun (offset : ILUInt32) =>
      this.data + (offset * this.elemSize).setWidth w := by
  cases hoffset : elemOffset this.bounds args 0 with
  | none => rw [getElemAddress, hoffset, Option.map_none, Option.map_none]
  | some offset =>
    have hpasses : Passes this.bounds args := by
      rw [← isSome_elemOffset hlength 0, hoffset]
      rfl
    obtain ⟨place, _, hoffset', _, _, hmsb⟩ := h.offset hpasses
    obtain rfl := Option.some.inj (hoffset.symm.trans hoffset')
    rw [getElemAddress, hoffset, Option.map_some, Option.map_some,
      BitVec.signExtend_eq_setWidth_of_msb_false hmsb]

omit h in
theorem ilTypeGetElemType_eq {type : ILType} (htype : IsArrayType type) :
    ilTypeGetElemType type = (headerType type).2 := by
  induction htype with
  | array => rfl
  | «continue» _ _ _ ih => exact ih

theorem Built.elemSize_reflective (htype : IsArrayType synType) :
    ilSizeOfType (ilTypeGetElemType this.synType) = this.elemSize := by
  rw [h.synType_eq, ilTypeGetElemType_eq htype, h.elemSize_eq]

theorem Built.fastPath (hrank : this.bounds.length = 2) (index1 index2 : ILInt32) :
    get2ElemAddress this index1 index2 = getElemAddress this [index1, index2] := by
  have hbounds := h.bounds_eq
  obtain ⟨dim1, dim2, rfl⟩ : ∃ dim1 dim2, dims = [dim1, dim2] := by
    rw [← List.length_eq_two, ← map_setMultipliers dims, ← hbounds, List.length_map, hrank]
  unfold get2ElemAddress getElemAddress
  rw [hbounds]
  simp only [setMultipliers, elemOffset]
  cases checkIndex ⟨dim1.1, dim1.2, 1 * dim2.2⟩ index1 with
  | none => rfl
  | some i =>
    cases checkIndex ⟨dim2.1, dim2.2, 1⟩ index2 with
    | none => rfl
    | some j => simp

theorem Built.getIii (htype : IsArrayType synType) (hpos : 0 < this.bounds.length)
    (hrank : this.bounds.length ≤ 3) (index1 index2 index3 : ILInt32) :
    ilArrayGetIii ilSizeOfType this index1 index2 index3 =
      getElemAddress this ([index1, index2, index3].take this.bounds.length) := by
  have hlength : ([index1, index2, index3].take this.bounds.length).length =
      this.bounds.length := by
    simpa using hrank
  have hbounds := h.bounds_eq
  have hdims : this.bounds.length = dims.length := by
    rw [hbounds, ← List.length_map, map_setMultipliers]
  rw [h.getElemAddress_unsigned hlength, hdims]
  rw [hdims] at hpos hrank
  unfold ilArrayGetIii
  rw [h.elemSize_reflective htype, hbounds]
  -- the rank decides how many indices there are
  match dims, hpos, hrank with
  | [dim1], _, _ =>
    simp only [setMultipliers, List.length_cons, List.length_nil, List.take, elemOffset]
    cases checkIndex ⟨dim1.1, dim1.2, 1⟩ index1 with
    | none => rfl
    | some i => simp
  | [dim1, dim2], _, _ =>
    simp only [setMultipliers, List.length_cons, List.length_nil, List.take, elemOffset]
    cases checkIndex ⟨dim1.1, dim1.2, 1 * dim2.2⟩ index1 with
    | none => rfl
    | some i =>
      cases checkIndex ⟨dim2.1, dim2.2, 1⟩ index2 with
      | none => rfl
      | some j => simp
  | [dim1, dim2, dim3], _, _ =>
    simp only [setMultipliers, List.length_cons, List.length_nil, List.take, elemOffset]
    cases checkIndex ⟨dim1.1, dim1.2, 1 * dim3.2 * dim2.2⟩ index1 with
    | none => rfl
    | some i =>
      cases checkIndex ⟨dim2.1, dim2.2, 1 * dim3.2⟩ index2 with
      | none => rfl
      | some j =>
        cases checkIndex ⟨dim3.1, dim3.2, 1⟩ index3 with
        | none => rfl
        | some k => simp

theorem Built.getAi (htype : IsArrayType synType) {indices : List ILInt32}
    (hlength : indices.length = this.bounds.length) :
    ilArrayGetAi ilSizeOfType this indices = getElemAddress this indices := by
  unfold ilArrayGetAi
  rw [h.elemSize_reflective htype]
  split
  · rename_i index
    have hrank : this.bounds.length = 1 := hlength.symm
    rw [h.getIii htype (by omega) (by omega), hrank]
    rfl
  · rw [h.getElemAddress_unsigned hlength]

end Elements

/-! ### The indices that are accepted -/

section Accepted

variable {bounds : List MArrayBounds} {args : List ILInt32}

theorem passes_iff_forall₂ (hlength : args.length = bounds.length) :
    Passes bounds args ↔ List.Forall₂
      (fun bound arg => (arg - bound.lower).toNat < bound.size.toNat) bounds args := by
  induction bounds generalizing args with
  | nil =>
    obtain rfl := List.length_eq_zero_iff.1 hlength
    simp [Passes, sizesOf, digitsOf]
  | cons bound bounds ih =>
    cases args with
    | nil => cases hlength
    | cons arg args => rw [passes_cons, List.forall₂_cons, ih (Nat.succ.inj hlength)]

theorem passes_iff_of_fit (hnonneg : ∀ bound ∈ bounds, 0 ≤ bound.size.toInt)
    (hfit : ∀ bound ∈ bounds, bound.lower.toInt + bound.size.toInt ≤ 2 ^ 31)
    (hlength : args.length = bounds.length) :
    Passes bounds args ↔ List.Forall₂ InBounds bounds args := by
  induction bounds generalizing args with
  | nil =>
    obtain rfl := List.length_eq_zero_iff.1 hlength
    simp [Passes, sizesOf, digitsOf]
  | cons bound bounds ih =>
    obtain ⟨hbound, hbounds⟩ := List.forall_mem_cons.1 hnonneg
    obtain ⟨hfirst, hrest⟩ := List.forall_mem_cons.1 hfit
    cases args with
    | nil => cases hlength
    | cons arg args =>
      rw [passes_cons, List.forall₂_cons, passes_iff_inBounds hbound hfirst,
        ih hbounds hrest (Nat.succ.inj hlength)]

theorem not_forall₂_of_size_zero {bound : MArrayBounds} (hmem : bound ∈ bounds)
    (hzero : bound.size = 0) : ¬ List.Forall₂ InBounds bounds args := by
  intro hinBounds
  induction hinBounds with
  | nil => cases hmem
  | @cons first arg _ _ hfirst _ ih =>
    cases hmem with
    | head =>
      obtain ⟨hlow, hhigh⟩ := hfirst
      rw [hzero, BitVec.ofNat_eq_ofNat, BitVec.toInt_zero, Int.add_zero] at hhigh
      omega
    | tail _ hrest => exact ih hrest

/-- Indices that are accepted, and in bounds only where the indices of the dimension are
numbers of 32 bits. -/
def extremeArgs (bounds : List MArrayBounds) : List ILInt32 :=
  bounds.map fun bound =>
    if bound.lower.toInt + bound.size.toInt ≤ 2 ^ 31 then bound.lower else BitVec.intMin 32

theorem extremeArgs_passes (hnonneg : ∀ bound ∈ bounds, 0 ≤ bound.size.toInt)
    (hsize : ∀ bound ∈ bounds, bound.size ≠ 0) : Passes bounds (extremeArgs bounds) := by
  rw [passes_iff_forall₂ (by simp [extremeArgs]), extremeArgs, List.forall₂_map_right_iff,
    List.forall₂_same]
  intro bound hmem
  split_ifs with hfit
  · rw [BitVec.sub_self]
    apply Nat.pos_of_ne_zero
    intro hzero
    exact hsize bound hmem (BitVec.eq_of_toNat_eq hzero)
  · exact (intMin_passes (hnonneg bound hmem) hfit).1

theorem fit_of_extremeArgs (hnonneg : ∀ bound ∈ bounds, 0 ≤ bound.size.toInt)
    (hinBounds : List.Forall₂ InBounds bounds (extremeArgs bounds)) {bound : MArrayBounds}
    (hmem : bound ∈ bounds) : bound.lower.toInt + bound.size.toInt ≤ 2 ^ 31 := by
  rw [extremeArgs, List.forall₂_map_right_iff, List.forall₂_same] at hinBounds
  by_contra hfit
  have hbound := hinBounds bound hmem
  rw [if_neg hfit] at hbound
  exact (intMin_passes (hnonneg bound hmem) hfit).2 hbound

end Accepted

section Sound

variable {ilSizeOfType : ILType → ILUInt32} {synType : ILType}
  {dims : List (ILInt32 × ILInt32)} {this : SystemMArray w}
  (h : Built ilSizeOfType synType dims this)
include h

theorem Built.dims_eq : dims = this.bounds.map fun bound => (bound.lower, bound.size) := by
  rw [h.bounds_eq, map_setMultipliers]

theorem Built.boundsFit_iff : BoundsFit dims ↔ (∃ bound ∈ this.bounds, bound.size = 0) ∨
    ∀ bound ∈ this.bounds, bound.lower.toInt + bound.size.toInt ≤ 2 ^ 31 := by
  simp [BoundsFit, h.dims_eq]

theorem Built.accepts_iff : (∀ args, args.length = this.bounds.length →
    ((getElemAddress this args).isSome = true ↔ List.Forall₂ InBounds this.bounds args)) ↔
      BoundsFit dims := by
  rw [h.boundsFit_iff]
  constructor
  · intro haccepts
    by_cases hzero : ∃ bound ∈ this.bounds, bound.size = 0
    · exact .inl hzero
    · have hlength : (extremeArgs this.bounds).length = this.bounds.length := by
        simp [extremeArgs]
      have hpasses : Passes this.bounds (extremeArgs this.bounds) :=
        extremeArgs_passes h.nonneg fun bound hmem hsize => hzero ⟨bound, hmem, hsize⟩
      have hinBounds := (haccepts _ hlength).1 ((isSome_getElemAddress hlength).2 hpasses)
      exact .inr fun bound => fit_of_extremeArgs h.nonneg hinBounds
  · intro hfit args hlength
    rw [isSome_getElemAddress hlength]
    cases hfit with
    | inl hzero =>
      obtain ⟨bound, hmem, hsize⟩ := hzero
      apply iff_of_false
      · intro hpasses
        apply (MixedRadix.prod_pos hpasses).ne'
        exact List.prod_eq_zero (List.mem_map.2 ⟨bound, hmem, congrArg BitVec.toNat hsize⟩)
      · exact not_forall₂_of_size_zero hmem hsize
    | inr hfit => exact passes_iff_of_fit h.nonneg hfit hlength

theorem Built.sound_iff (htype : IsArrayType synType) (hpos : 0 < dims.length) :
    MArraySound ilSizeOfType this ↔ BoundsFit dims := by
  have hrank : 0 < this.bounds.length := by
    rw [h.dims_eq, List.length_map] at hpos
    exact hpos
  constructor
  · intro hsound
    exact h.accepts_iff.1 hsound.accepts
  · intro hfit
    exact {
      accepts := h.accepts_iff.2 hfit
      places := h.places
      fastPath := fun hlength => h.fastPath hlength
      getIii := fun hle => h.getIii htype hrank hle
      getAi := fun _ hlength => h.getAi htype hlength }

end Sound

theorem rank_pos (synType : ILType) : 0 < (headerType synType).1 := by
  unfold headerType
  split <;> simp

/-- Lower bounds of zero always fit. -/
theorem boundsFit_zero (sizes : List ILInt32) : BoundsFit (sizes.map fun size => (0, size)) := by
  apply Or.inr
  intro dim hmem
  obtain ⟨size, _, rfl⟩ := List.mem_map.1 hmem
  have hlt := size.toInt_lt
  simp only [BitVec.ofNat_eq_ofNat, BitVec.toInt_zero, Int.zero_add]
  omega

/-- Arrays that the constructors accept are sound, but for dimensions whose last index is
not a number of 32 bits. -/
theorem systemMArray_sound_iff (ilSizeOfType : ILType → ILUInt32) {synType : ILType}
    (htype : IsArrayType synType) (data : BitVec w) :
    (∀ sizes this, systemMArrayCtor1 ilSizeOfType synType sizes data = .ok this →
      MArraySound ilSizeOfType this) ∧
    ∀ dims this, systemMArrayCtor2 ilSizeOfType synType dims data = .ok this →
      (MArraySound ilSizeOfType this ↔ BoundsFit dims.toList) := by
  have hrank := rank_pos synType
  constructor
  · intro sizes this hthis
    apply ((built_of_ok hthis).sound_iff htype _).2
    · exact boundsFit_zero sizes.toList
    · simpa using hrank
  · intro dims this hthis
    apply (built_of_ok hthis).sound_iff htype
    simpa using hrank

/-- A matrix of two rows from 1 on, and three columns from -1 on, of integers. -/
theorem systemMArray_sound_iff_sample : ∃ this : SystemMArray 32,
    systemMArrayCtor2 (fun _ => 4) (.arrayContinue (.array ilTypeInt32 0 0) 0 0)
      #v[(1, 2), (-1, 3)] 0x1000 = .ok this ∧ MArraySound (fun _ => 4) this := by
  have hthis : systemMArrayCtor2 (fun _ => 4) (.arrayContinue (.array ilTypeInt32 0 0) 0 0)
      #v[(1, 2), (-1, 3)] (0x1000 : BitVec 32) =
        .ok ⟨.arrayContinue (.array ilTypeInt32 0 0) 0 0, 4, [⟨1, 2, 3⟩, ⟨-1, 3, 1⟩], 0x1000, 24⟩ :=
    rfl
  have hsound := (systemMArray_sound_iff (fun _ => 4) (.continue 0 0 (.array ilTypeInt32 0 0))
    (0x1000 : BitVec 32)).2 _ _ hthis
  have hends : ∀ dim ∈ [((1 : ILInt32), (2 : ILInt32)), (-1, 3)],
      dim.1.toInt + dim.2.toInt ≤ 2 ^ 31 := by
    simp
  exact ⟨_, hthis, hsound.2 (.inr hends)⟩

/-- The dimension has the indices 2147483647 and 2147483648, and -2147483648 is taken for
the latter. -/
theorem not_systemMArray_sound : ∃ this : SystemMArray 32,
    systemMArrayCtor2 (fun _ => 4) (.array ilTypeInt32 0 0) #v[(0x7FFFFFFF, 2)] 0x1000 =
      .ok this ∧ getElemAddress this [0x80000000] = some 0x1004 ∧
    ¬ MArraySound (fun _ => 4) this := by
  refine ⟨⟨.array ilTypeInt32 0 0, 4, [⟨0x7FFFFFFF, 2, 1⟩], 0x1000, 8⟩, rfl, rfl, ?_⟩
  intro hsound
  have haccepts := (hsound.accepts [0x80000000] rfl).1 rfl
  simp [InBounds] at haccepts

end Pnet.Engine
