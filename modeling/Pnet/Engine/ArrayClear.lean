import Pnet.Engine.MArray

/-! `Array.Clear` of `engine/lib_array.c`, over the bytes of a memory whose addresses have
`w` bits. -/
namespace Pnet.Engine
open Pnet.Image Pnet.Lib

variable {w : Nat}

/-! ### Single-dimensional arrays -/

/-- `buffer` is the address of the first item, `dataSize` what is allocated from there on. -/
structure SystemSArray (w : Nat) where
  synType : ILType
  length : ILInt32
  buffer : BitVec w
  dataSize : Nat

def ilTypeElemType : ILType → ILType
  | .array elemType _ _ | .arrayContinue elemType _ _ => elemType
  | _ => .invalid

/-- `public T[](uint size)` -/
def systemSArrayCtor (ilSizeOfType : ILType → ILUInt32) (synType : ILType) (length : ILUInt32)
    (buffer : BitVec w) : Except MArrayError (SystemSArray w) :=
  let elemSize := ilSizeOfType (ilTypeElemType synType)
  let totalSize : ILUInt64 := elemSize.setWidth 64 * length.setWidth 64
  if ilMaxInt32 < totalSize then .error .outOfMemory
  else .ok ⟨synType, length, buffer, totalSize.toNat⟩

/-! ### Arrays -/

inductive SystemArray (w : Nat) where
  | sArray (this : SystemSArray w)
  | mArray (this : SystemMArray w)

inductive ClearError where
  | argNull (name : String)
  | argRange (name resource : String)
deriving DecidableEq, Repr

namespace SystemArray

/-- The type of the class of the array. -/
def synType : SystemArray w → ILType
  | sArray this => this.synType
  | mArray this => this.synType

def getArrayElemType (array : SystemArray w) : ILType := ilTypeGetElemType array.synType

end SystemArray

def totalLen (bounds : List MArrayBounds) : ILInt32 :=
  bounds.foldl (fun totalLen bound => totalLen * bound.size) 1

/-- Determine the start address of the clear. -/
def clearStart (array : SystemArray w) (elemSize : ILUInt32) (index length : ILInt32) :
    Except ClearError (BitVec w) :=
  match array with
  | .sArray this =>
    if index.toInt < 0 then .error (.argRange "index" "Arg_InvalidArrayIndex")
    else if length.toInt < 0 ∨ (this.length - index).toInt < length.toInt then
      .error (.argRange "index" "Arg_InvalidArrayRange")
    else .ok (this.buffer + (index * elemSize).setWidth w)
  | .mArray this =>
    match this.bounds with
    -- Shouldn't happen: there is at least one dimension
    | [] => .error (.argRange "index" "Arg_InvalidArrayIndex")
    | bound :: _ =>
      if index.toInt < bound.lower.toInt then .error (.argRange "index" "Arg_InvalidArrayIndex")
      else
        let index := index - bound.lower
        if length.toInt < 0 ∨ (totalLen this.bounds - index).toInt < length.toInt then
          .error (.argRange "index" "Arg_InvalidArrayRange")
        else .ok (this.data + (index * elemSize).setWidth w)

/-- `public static void Clear(Array array, int index, int length)`; with the memory after it. -/
def ilArrayClear (ilSizeOfType : ILType → ILUInt32) (array : Option (SystemArray w))
    (index length : ILInt32) (memory : BitVec w → ILUInt8) :
    Except ClearError Unit × (BitVec w → ILUInt8) :=
  match array with
  | none => (.error (.argNull "array"), memory)
  | some array =>
    let elemSize := ilSizeOfType array.getArrayElemType
    match clearStart array elemSize index length with
    | .error error => (.error error, memory)
    | .ok start =>
      -- Clear the array contents within the specified range
      if 0 < length.toInt then (.ok (), fill memory start (length * elemSize).toNat 0)
      else (.ok (), memory)

end Pnet.Engine

/-! ### What is cleared

What `Array.Clear` clears. The tests of the range are made with differences of 32 bits. In
an array whose first position is zero no difference is too large; elsewhere an index can lie
so far behind the lower bound that it counts as one before the elements. -/
namespace Pnet.Engine
open Pnet.Image Pnet.Lib

variable {w : Nat}

/-! ### What should hold -/

/-- Where the elements of an array are: `first` is the position of the first of them. -/
structure Elements (w : Nat) where
  first : Int
  count : Nat
  elemSize : Nat
  data : BitVec w
  dataSize : Nat

def elements (ilSizeOfType : ILType → ILUInt32) : SystemArray w → Elements w
  | .sArray this =>
    ⟨0, this.length.toNat, (ilSizeOfType (ilTypeElemType this.synType)).toNat, this.buffer,
      this.dataSize⟩
  | .mArray this =>
    ⟨(this.bounds.head?.map fun bound => bound.lower.toInt).getD 0, (sizesOf this.bounds).prod,
      this.elemSize.toNat, this.data, this.dataSize⟩

namespace Elements

/-- The position of the element is in [index, index+length). -/
def InRange (elements : Elements w) (index length : ILInt32) (i : Nat) : Prop :=
  index.toInt ≤ elements.first + i ∧ elements.first + i < index.toInt + length.toInt

/-- The address belongs to the element. -/
def Holds (elements : Elements w) (i : Nat) (address : BitVec w) : Prop :=
  Within (itemStart elements.data elements.elemSize i) elements.elemSize address

end Elements

/-- The elements in the range are zero, and nothing else has changed. -/
structure Cleared (elements : Elements w) (index length : ILInt32)
    (before after : BitVec w → ILUInt8) : Prop where
  clears : ∀ i < elements.count, elements.InRange index length i →
    ∀ address, elements.Holds i address → after address = 0
  keeps : ∀ address,
    (∀ i < elements.count, elements.InRange index length i → ¬ elements.Holds i address) →
    after address = before address
  inside : ∀ address, after address ≠ before address →
    Within elements.data elements.dataSize address

/-- Whatever is in the memory, the call throws and changes nothing, or clears the range. -/
def ClearsRange (ilSizeOfType : ILType → ILUInt32) (array : SystemArray w)
    (index length : ILInt32) : Prop :=
  ∀ before, match ilArrayClear ilSizeOfType (some array) index length before with
    | (.error _, after) => after = before
    | (.ok (), after) => Cleared (elements ilSizeOfType array) index length before after

/-- What the constructors make. -/
inductive Constructed (ilSizeOfType : ILType → ILUInt32) : SystemArray w → Prop where
  | sArray {elemType : ILType} {size : Int} {length : ILUInt32} {buffer : BitVec w}
    {this : SystemSArray w}
    (h : systemSArrayCtor ilSizeOfType (.array elemType size 0) length buffer = .ok this) :
    Constructed ilSizeOfType (.sArray this)
  | mArray1 {synType : ILType} (htype : IsArrayType synType)
    {sizes : Vector ILInt32 (headerType synType).1} {data : BitVec w} {this : SystemMArray w}
    (h : systemMArrayCtor1 ilSizeOfType synType sizes data = .ok this) :
    Constructed ilSizeOfType (.mArray this)
  | mArray2 {synType : ILType} (htype : IsArrayType synType)
    {dims : Vector (ILInt32 × ILInt32) (headerType synType).1} {data : BitVec w}
    {this : SystemMArray w} (h : systemMArrayCtor2 ilSizeOfType synType dims data = .ok this) :
    Constructed ilSizeOfType (.mArray this)

/-- The index lies so far behind the lower bound that the difference counts as negative and
the range as one before the elements, and there are bytes to clear there. -/
def ClearsBeyond (elements : Elements w) (index length : ILInt32) : Prop :=
  2 ^ 31 + elements.count < index.toInt - elements.first ∧
  0 < length.toInt ∧ index.toInt - elements.first + length.toInt ≤ 2 ^ 32 + elements.count ∧
  length.toNat * elements.elemSize % 2 ^ 32 ≠ 0

/-! ### The tests -/

theorem clearStart_sArray_iff {this : SystemSArray w} {elemSize : ILUInt32}
    {index length : ILInt32} {start : BitVec w} :
    clearStart (.sArray this) elemSize index length = .ok start ↔
      0 ≤ index.toInt ∧ 0 ≤ length.toInt ∧ length.toInt ≤ (this.length - index).toInt ∧
      start = this.buffer + (index * elemSize).setWidth w := by
  unfold clearStart
  dsimp only
  split_ifs with hindex hrange
  · exact iff_of_false (by simp) fun h => absurd h.1 (not_le.2 hindex)
  · refine iff_of_false (by simp) fun h => ?_
    exact hrange.elim (not_lt.2 h.2.1) (not_lt.2 h.2.2.1)
  · obtain ⟨hlength, hle⟩ := not_or.1 hrange
    rw [Except.ok.injEq, eq_comm, and_iff_right (not_lt.1 hindex), and_iff_right (not_lt.1 hlength),
      and_iff_right (not_lt.1 hle)]

theorem clearStart_mArray_iff {this : SystemMArray w} {bound : MArrayBounds}
    {bounds : List MArrayBounds} (hbounds : this.bounds = bound :: bounds)
    {elemSize : ILUInt32} {index length : ILInt32} {start : BitVec w} :
    clearStart (.mArray this) elemSize index length = .ok start ↔
      bound.lower.toInt ≤ index.toInt ∧ 0 ≤ length.toInt ∧
      length.toInt ≤ (totalLen this.bounds - (index - bound.lower)).toInt ∧
      start = this.data + ((index - bound.lower) * elemSize).setWidth w := by
  simp only [clearStart, hbounds]
  split_ifs with hindex hrange
  · exact iff_of_false (by simp) fun h => absurd h.1 (not_le.2 hindex)
  · refine iff_of_false (by simp) fun h => ?_
    exact hrange.elim (not_lt.2 h.2.1) (not_lt.2 h.2.2.1)
  · obtain ⟨hlength, hle⟩ := not_or.1 hrange
    rw [Except.ok.injEq, eq_comm, and_iff_right (not_lt.1 hindex), and_iff_right (not_lt.1 hlength),
      and_iff_right (not_lt.1 hle)]

theorem nonneg_of_clearStart {array : SystemArray w} {elemSize : ILUInt32}
    {index length : ILInt32} {start : BitVec w}
    (h : clearStart array elemSize index length = .ok start) : 0 ≤ length.toInt := by
  cases array with
  | sArray this => exact (clearStart_sArray_iff.1 h).2.1
  | mArray this =>
    cases hbounds : this.bounds with
    | nil =>
      rw [clearStart, hbounds] at h
      cases h
    | cons bound bounds => exact ((clearStart_mArray_iff hbounds).1 h).2.1

/-- The test of the range, for an index that is `skipped` elements behind the first: it lets
those pass that lie beyond the elements by more than a number of 31 bits. -/
theorem range_test_iff {total index length : ILInt32} {count skipped : Nat}
    (htotal : total.toNat = count) (hcount : count ≤ 0x7FFFFFFF) (hindex : index.toNat = skipped)
    (hlength : 0 ≤ length.toInt) : length.toInt ≤ (total - index).toInt ↔
      skipped + length.toNat ≤ count ∨
        2 ^ 31 + count < skipped ∧ skipped + length.toNat ≤ 2 ^ 32 + count := by
  have hsub := BitVec.toNat_sub total index
  have h₁ := BitVec.toInt_eq_toNat_cond length
  have h₂ := BitVec.toInt_eq_toNat_cond (total - index)
  have hlt₁ := length.isLt
  have hlt₂ := index.isLt
  rw [htotal, hindex] at hsub
  split_ifs at h₁ h₂ <;> omega

theorem toNat_sub_of_le {x y : BitVec 32} (h : y.toInt ≤ x.toInt) :
    x.toInt = y.toInt + (x - y).toNat := by
  have hsub := BitVec.toNat_sub x y
  have h₁ := BitVec.toInt_eq_toNat_cond x
  have h₂ := BitVec.toInt_eq_toNat_cond y
  have hlt₁ := x.isLt
  have hlt₂ := y.isLt
  split_ifs at h₁ h₂ <;> omega

theorem toInt_eq_of_nonneg {x : BitVec 32} (h : 0 ≤ x.toInt) : x.toInt = x.toNat := by
  rw [BitVec.toInt_eq_toNat_cond] at h ⊢
  have hlt := x.isLt
  split_ifs at h ⊢ <;> omega

theorem setWidth_mul {x y : BitVec 32} (h : x.toNat * y.toNat < 2 ^ 32) :
    (x * y).setWidth w = BitVec.ofNat w (x.toNat * y.toNat) := by
  rw [← BitVec.ofNat_toNat, BitVec.toNat_mul, Nat.mod_eq_of_lt h]

/-! ### Clearing elements in a row -/

section Elements

variable {elements : Elements w} {index length : ILInt32} {before : BitVec w → ILUInt8}

/-- No element in the range has a byte. -/
theorem cleared_refl (h : ∀ i < elements.count, elements.InRange index length i →
    elements.elemSize = 0) : Cleared elements index length before before where
  clears := by
    intro i hi hrange address hholds
    rw [Elements.Holds, h i hi hrange] at hholds
    exact absurd hholds not_within_zero
  keeps _ _ := rfl
  inside _ hne := absurd rfl hne

theorem cleared_fill (before : BitVec w → ILUInt8) (skipped : Nat)
    (hskipped : index.toInt = elements.first + skipped)
    (hlength : 0 ≤ length.toInt) (hcount : skipped + length.toNat ≤ elements.count)
    (hsize : elements.count * elements.elemSize ≤ elements.dataSize) :
    Cleared elements index length before
      (fill before (itemStart elements.data elements.elemSize skipped)
        (length.toNat * elements.elemSize) 0) := by
  have htoInt := toInt_eq_of_nonneg hlength
  have hrange : ∀ i, elements.InRange index length i ↔
      skipped ≤ i ∧ i < skipped + length.toNat := by
    intro i
    rw [Elements.InRange, hskipped, htoInt]
    omega
  constructor
  · intro i hi hin address hholds
    obtain ⟨hfirst, hlast⟩ := (hrange i).1 hin
    exact if_pos (within_items.2 ⟨i, hfirst, hlast, hholds⟩)
  · intro address hnot
    apply if_neg
    intro hwithin
    obtain ⟨i, hfirst, hlast, hholds⟩ := within_items.1 hwithin
    exact hnot i (by omega) ((hrange i).2 ⟨hfirst, hlast⟩) hholds
  · intro address hne
    have hwithin := by_contra fun hnot => hne (if_neg hnot)
    obtain ⟨i, _, hlast, hholds⟩ := within_items.1 hwithin
    exact (within_of_item (by omega) hholds).mono hsize

/-- The same with the places as `Array.Clear` finds them. -/
theorem cleared_of_fits {elemSize x : ILUInt32} (helem : elements.elemSize = elemSize.toNat)
    (hskipped : index.toInt = elements.first + x.toNat) (hlength : 0 ≤ length.toInt)
    (hcount : x.toNat + length.toNat ≤ elements.count)
    (hsize : elements.count * elements.elemSize ≤ elements.dataSize)
    (hmax : elements.dataSize ≤ 0x7FFFFFFF) : Cleared elements index length before
      (fill before (elements.data + (x * elemSize).setWidth w) (length * elemSize).toNat 0) := by
  have hall := hsize.trans hmax
  rw [helem] at hall
  have hx : x.toNat * elemSize.toNat < 2 ^ 32 := by
    have := Nat.mul_le_mul_right elemSize.toNat ((Nat.le_add_right ..).trans hcount)
    omega
  have hlen : length.toNat * elemSize.toNat < 2 ^ 32 := by
    have := Nat.mul_le_mul_right elemSize.toNat ((Nat.le_add_left ..).trans hcount)
    omega
  have hcleared := cleared_fill before x.toNat hskipped hlength hcount hsize
  rw [itemStart, helem] at hcleared
  rw [setWidth_mul hx, BitVec.toNat_mul, Nat.mod_eq_of_lt hlen]
  exact hcleared

/-- Where no element is in the range, nothing may be written. -/
theorem not_cleared_fill {start : BitVec w} {len : Nat} (hlen : 0 < len)
    (hnone : ∀ i < elements.count, ¬ elements.InRange index length i) :
    ¬ Cleared elements index length (fun _ => 1) (fill (fun _ => 1) start len 0) := by
  intro hcleared
  have hkeeps := hcleared.keeps start fun i hi hin => absurd hin (hnone i hi)
  rw [fill, if_pos (within_self hlen)] at hkeeps
  exact absurd hkeeps (by decide)

end Elements

/-- What is to be shown of the calls that pass the tests. -/
theorem clearsRange_iff {ilSizeOfType : ILType → ILUInt32} {array : SystemArray w}
    {index length : ILInt32} : ClearsRange ilSizeOfType array index length ↔
    ∀ start, clearStart array (ilSizeOfType array.getArrayElemType) index length = .ok start →
      ∀ before, Cleared (elements ilSizeOfType array) index length before
        (fill before start (length * ilSizeOfType array.getArrayElemType).toNat 0) := by
  unfold ClearsRange ilArrayClear
  dsimp only
  cases hstart : clearStart array (ilSizeOfType array.getArrayElemType) index length with
  | error error => simp
  | ok start =>
    have hnonneg := nonneg_of_clearStart hstart
    by_cases hpos : 0 < length.toInt
    · simp [hpos]
    · have hzero : length.toInt = (0#32).toInt := le_antisymm (not_lt.1 hpos) hnonneg
      obtain rfl := BitVec.eq_of_toInt_eq hzero
      simp

/-! ### Single-dimensional arrays -/

section SArray

variable {ilSizeOfType : ILType → ILUInt32}

theorem dataSize_systemSArrayCtor {synType : ILType} {length : ILUInt32} {buffer : BitVec w}
    {this : SystemSArray w} (h : systemSArrayCtor ilSizeOfType synType length buffer = .ok this) :
    this.synType = synType ∧ this.dataSize =
      this.length.toNat * (ilSizeOfType (ilTypeElemType synType)).toNat ∧
    this.dataSize ≤ 0x7FFFFFFF := by
  unfold systemSArrayCtor at h
  dsimp only at h
  split_ifs at h with hlarge
  obtain rfl := Except.ok.inj h
  rw [ilMaxInt32, BitVec.not_lt, BitVec.le_def] at hlarge
  refine ⟨rfl, ?_, hlarge⟩
  rw [BitVec.toNat_mul, BitVec.toNat_setWidth, BitVec.toNat_setWidth, Nat.mul_comm length.toNat]
  have hsize := (ilSizeOfType (ilTypeElemType synType)).isLt
  have hlength := length.isLt
  rw [Nat.mod_eq_of_lt (a := BitVec.toNat _) (by omega),
    Nat.mod_eq_of_lt (a := length.toNat) (by omega)]
  apply Nat.mod_eq_of_lt
  calc _ < 2 ^ 32 * 2 ^ 32 := Nat.mul_lt_mul'' hsize hlength
    _ = 2 ^ 64 := by decide

/-- A vector is never cleared beyond its items. -/
theorem SystemSArray.clearsRange {elemType : ILType} {size : Int} {length : ILUInt32}
    {buffer : BitVec w} {this : SystemSArray w}
    (h : systemSArrayCtor ilSizeOfType (.array elemType size 0) length buffer = .ok this)
    (index count : ILInt32) : ClearsRange ilSizeOfType (.sArray this) index count := by
  obtain ⟨hsynType, hsize, hmax⟩ := dataSize_systemSArrayCtor h
  have helem : (SystemArray.sArray this).getArrayElemType = ilTypeElemType this.synType := by
    rw [SystemArray.getArrayElemType, SystemArray.synType, hsynType]
    rfl
  rw [clearsRange_iff, helem]
  intro start hstart before
  obtain ⟨hindex, hcount, hle, rfl⟩ := clearStart_sArray_iff.1 hstart
  rw [← hsynType] at hsize
  by_cases hzero : (ilSizeOfType (ilTypeElemType this.synType)).toNat = 0
  · -- items without bytes: nothing is written, however large the number of them
    rw [BitVec.toNat_mul, hzero, Nat.mul_zero, Nat.zero_mod, fill_zero]
    exact cleared_refl fun i hi hin => hzero
  · have hlength : this.length.toNat ≤ 0x7FFFFFFF :=
      (Nat.le_mul_of_pos_right _ (Nat.pos_of_ne_zero hzero)).trans (hsize ▸ hmax)
    have hskipped : index.toInt = index.toNat := by
      have hsub := toNat_sub_of_le (y := 0) hindex
      rwa [BitVec.ofNat_eq_ofNat, BitVec.sub_zero, BitVec.toInt_zero, zero_add] at hsub
    have hfits : index.toNat + count.toNat ≤ this.length.toNat := by
      cases (range_test_iff rfl hlength rfl hcount).1 hle with
      | inl hfits => exact hfits
      | inr hbeyond => have := index.toInt_lt; omega
    have hfirst : index.toInt = (elements ilSizeOfType (.sArray this)).first + index.toNat :=
      hskipped.trans (zero_add _).symm
    exact cleared_of_fits rfl hfirst hcount hfits hsize.ge hmax
end SArray

/-! ### Multi-dimensional arrays -/

theorem toNat_totalLen (bounds : List MArrayBounds) :
    (totalLen bounds).toNat = (sizesOf bounds).prod % 2 ^ 32 := by
  have hfold : ∀ start : ILInt32,
      (bounds.foldl (fun totalLen bound => totalLen * bound.size) start).toNat =
        start.toNat * (sizesOf bounds).prod % 2 ^ 32 := by
    induction bounds with
    | nil =>
      intro start
      rw [sizesOf, List.map_nil, List.prod_nil, Nat.mul_one, Nat.mod_eq_of_lt start.isLt]
      rfl
    | cons bound bounds ih =>
      intro start
      rw [List.foldl_cons, ih, BitVec.toNat_mul, Nat.mod_mul_mod, sizesOf, sizesOf, List.map_cons,
        List.prod_cons, Nat.mul_assoc]
  rw [totalLen, hfold]
  exact congrArg (· % 2 ^ 32) (Nat.one_mul _)

theorem neg_le_first (ilSizeOfType : ILType → ILUInt32) (array : SystemArray w) :
    -2 ^ 31 ≤ (elements ilSizeOfType array).first := by
  cases array with
  | sArray this => exact Int.neg_nonpos_of_nonneg (by decide)
  | mArray this =>
    dsimp only [elements]
    cases this.bounds with
    | nil => exact Int.neg_nonpos_of_nonneg (by decide)
    | cons bound bounds => exact bound.lower.le_toInt

section MArray

variable {ilSizeOfType : ILType → ILUInt32} {synType : ILType} {dims : List (ILInt32 × ILInt32)}
  {this : SystemMArray w} (h : Built ilSizeOfType synType dims this) (htype : IsArrayType synType)
  (hpos : 0 < dims.length) {index length : ILInt32}
include h hpos

/-- The calls that pass the tests, by the number of elements before the range. -/
theorem Built.clearStart_iff {start : BitVec w} :
    clearStart (.mArray this) this.elemSize index length = .ok start ↔
    ∃ skipped : ILUInt32, index.toInt = (elements ilSizeOfType (.mArray this)).first +
        skipped.toNat ∧ 0 ≤ length.toInt ∧
      (skipped.toNat + length.toNat ≤ (elements ilSizeOfType (.mArray this)).count ∨
        2 ^ 31 + (elements ilSizeOfType (.mArray this)).count < skipped.toNat ∧
        skipped.toNat + length.toNat ≤ 2 ^ 32 + (elements ilSizeOfType (.mArray this)).count) ∧
      start = this.data + (skipped * this.elemSize).setWidth w := by
  obtain ⟨bound, bounds, hbounds⟩ : ∃ bound bounds, this.bounds = bound :: bounds := by
    apply List.exists_cons_of_length_pos
    rw [h.dims_eq, List.length_map] at hpos
    exact hpos
  have hfirst : (elements ilSizeOfType (.mArray this)).first = bound.lower.toInt := by
    simp [elements, hbounds]
  have htotal : (totalLen this.bounds).toNat = (sizesOf this.bounds).prod := by
    rw [toNat_totalLen]
    exact Nat.mod_eq_of_lt (h.prod_le.trans_lt (by decide))
  rw [clearStart_mArray_iff hbounds, hfirst]
  constructor
  · rintro ⟨hlower, hlength, hle, rfl⟩
    have htest := (range_test_iff htotal h.prod_le rfl hlength).1 hle
    exact ⟨index - bound.lower, toNat_sub_of_le hlower, hlength, htest, rfl⟩
  · rintro ⟨skipped, hskipped, hlength, htest, rfl⟩
    have hlower : bound.lower.toInt ≤ index.toInt := by omega
    have hsub : index - bound.lower = skipped := by
      apply BitVec.eq_of_toNat_eq
      have := toNat_sub_of_le hlower
      omega
    rw [hsub]
    exact ⟨hlower, hlength, (range_test_iff htotal h.prod_le rfl hlength).2 htest, rfl⟩

include htype in
theorem Built.clearsRange_iff : ClearsRange ilSizeOfType (.mArray this) index length ↔
    ¬ ClearsBeyond (elements ilSizeOfType (.mArray this)) index length := by
  have helem : ilSizeOfType (SystemArray.mArray this).getArrayElemType = this.elemSize :=
    h.elemSize_reflective htype
  rw [Engine.clearsRange_iff, helem]
  constructor
  · rintro hclears ⟨hbeyond, hlength, hmost, hbytes⟩
    have htoInt := toInt_eq_of_nonneg hlength.le
    have hfirst := neg_le_first ilSizeOfType (.mArray this)
    have hindex := index.toInt_lt
    obtain ⟨skipped, hskipped⟩ : ∃ skipped : ILUInt32, index.toInt =
        (elements ilSizeOfType (.mArray this)).first + skipped.toNat := by
      generalize (elements ilSizeOfType (.mArray this)).first = first at hfirst hbeyond ⊢
      refine ⟨BitVec.ofNat 32 (index.toInt - first).toNat, ?_⟩
      rw [BitVec.toNat_ofNat, Nat.mod_eq_of_lt (by omega)]
      omega
    have hstart := (h.clearStart_iff hpos).2
      ⟨skipped, hskipped, hlength.le, .inr (by omega), rfl⟩
    refine not_cleared_fill ?_ ?_ (hclears _ hstart fun _ => 1)
    · rw [BitVec.toNat_mul]
      exact Nat.pos_of_ne_zero hbytes
    · rintro i hi ⟨hafter, -⟩
      omega
  · intro hnot start hstart before
    obtain ⟨skipped, hskipped, hlength, hrange, rfl⟩ := (h.clearStart_iff hpos).1 hstart
    have htoInt := toInt_eq_of_nonneg hlength
    cases hrange with
    | inl hfits =>
      by_cases hcount : 0 < (sizesOf this.bounds).prod
      · exact cleared_of_fits rfl hskipped hlength hfits (h.dataSize_eq hcount).ge h.dataSize_le
      · -- the array is empty, and so is the range
        have hcount : (elements ilSizeOfType (.mArray this)).count = 0 := by
          exact Nat.eq_zero_of_not_pos hcount
        have hzero : length.toNat = 0 := by omega
        rw [BitVec.toNat_mul, hzero, Nat.zero_mul, Nat.zero_mod, fill_zero]
        apply cleared_refl
        intro i hi
        omega
    | inr hbeyond =>
      have hbytes : (length * this.elemSize).toNat = 0 := by
        rw [BitVec.toNat_mul]
        by_cases hzero : length.toNat = 0
        · rw [hzero, Nat.zero_mul, Nat.zero_mod]
        · by_contra hbytes
          exact hnot ⟨by omega, by omega, by omega, hbytes⟩
      rw [hbytes, fill_zero]
      apply cleared_refl
      rintro i hi ⟨hafter, -⟩
      omega

end MArray

/-! ### All arrays -/

/-- `Array.Clear` clears the range or throws, but for ranges that begin more than 2^31
elements behind the end of an array. -/
theorem clearsRange_iff_not_beyond (ilSizeOfType : ILType → ILUInt32) {array : SystemArray w}
    (harray : Constructed ilSizeOfType array) (index length : ILInt32) :
    ClearsRange ilSizeOfType array index length ↔
      ¬ ClearsBeyond (elements ilSizeOfType array) index length := by
  cases harray with
  | sArray h =>
    apply iff_of_true (SystemSArray.clearsRange h index length)
    rintro ⟨hbeyond, -⟩
    have hindex := index.toInt_lt
    change _ < index.toInt - 0 at hbeyond
    omega
  | mArray1 htype h =>
    apply (built_of_ok h).clearsRange_iff htype
    simpa using rank_pos _
  | mArray2 htype h =>
    apply (built_of_ok h).clearsRange_iff htype
    simpa using rank_pos _

/-- Two integers from 5 on, of which the second is cleared. -/
theorem clearsRange_iff_not_beyond_sample : ∃ array : SystemArray 32,
    Constructed (fun _ => 4) array ∧ ClearsRange (fun _ => 4) array 6 1 := by
  have hthis : systemMArrayCtor2 (fun _ => 4) (.array ilTypeInt32 0 0) #v[(5, 2)]
      (0x1000 : BitVec 32) = .ok ⟨.array ilTypeInt32 0 0, 4, [⟨5, 2, 1⟩], 0x1000, 8⟩ := rfl
  have harray := Constructed.mArray2 (.array ilTypeInt32 0 0) hthis
  refine ⟨_, harray, (clearsRange_iff_not_beyond _ harray 6 1).2 ?_⟩
  rintro ⟨hbeyond, -⟩
  exact absurd hbeyond (by decide)

/-- One integer at -2147483648: clearing one at 5 writes zeros 20 bytes behind the end. -/
theorem not_clearsRange : ∃ array : SystemArray 32, Constructed (fun _ => 4) array ∧
    elements (fun _ => 4) array = ⟨-0x80000000, 1, 4, 0x1000, 4⟩ ∧
    (ilArrayClear (fun _ => 4) (some array) 5 1 fun _ => 1).2 0x1014 = 0 ∧
    ¬ ClearsRange (fun _ => 4) array 5 1 := by
  have hthis : systemMArrayCtor2 (fun _ => 4) (.array ilTypeInt32 0 0) #v[(0x80000000, 1)]
      (0x1000 : BitVec 32) =
        .ok ⟨.array ilTypeInt32 0 0, 4, [⟨0x80000000, 1, 1⟩], 0x1000, 4⟩ := rfl
  refine ⟨_, .mArray2 (.array ilTypeInt32 0 0) hthis, rfl, by decide, ?_⟩
  intro hclears
  have hinside := (hclears fun _ => 1).inside 0x1014 (by decide)
  exact absurd hinside (by decide)

end Pnet.Engine
