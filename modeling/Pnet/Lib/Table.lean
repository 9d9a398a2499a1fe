import Mathlib.Data.BitVec

/-! Numbers whose digits have a radix each, most significant digit first: the places of the
cells of a table with several dimensions. -/
namespace Pnet.Lib.MixedRadix

def place : List Nat → List Nat → Nat
  | _ :: sizes, digit :: digits => digit * sizes.prod + place sizes digits
  | _, _ => 0

/-- Each digit is less than its radix. -/
abbrev Valid (sizes digits : List Nat) : Prop :=
  List.Forall₂ (fun size digit => digit < size) sizes digits

variable {sizes digits digits' : List Nat}

@[simp] theorem place_nil : place [] [] = 0 := rfl

@[simp] theorem place_cons (size digit : Nat) (sizes digits : List Nat) :
    place (size :: sizes) (digit :: digits) = digit * sizes.prod + place sizes digits := rfl

theorem place_lt (h : Valid sizes digits) : place sizes digits < sizes.prod := by
  induction h with
  | nil => simp
  | @cons size digit sizes digits hdigit _ ih =>
    calc digit * sizes.prod + place sizes digits
        < digit * sizes.prod + sizes.prod := Nat.add_lt_add_left ih _
      _ = (digit + 1) * sizes.prod := (Nat.succ_mul ..).symm
      _ ≤ size * sizes.prod := Nat.mul_le_mul_right _ hdigit
      _ = (size :: sizes).prod := List.prod_cons.symm

theorem prod_pos (h : Valid sizes digits) : 0 < sizes.prod :=
  Nat.zero_lt_of_lt (place_lt h)

/-- Different digits have different places. -/
theorem place_inj (h : Valid sizes digits) (h' : Valid sizes digits')
    (heq : place sizes digits = place sizes digits') : digits = digits' := by
  induction h generalizing digits' with
  | nil =>
    cases h'
    rfl
  | @cons size digit sizes digits hdigit hrest ih =>
    obtain ⟨digit', digits', -, hrest', rfl⟩ := List.forall₂_cons_left_iff.1 h'
    have hlt := place_lt hrest
    have hlt' := place_lt hrest'
    rw [place_cons, place_cons] at heq
    have hdiv := congrArg (· / sizes.prod) heq
    simp only [Nat.mul_comm _ sizes.prod, Nat.mul_add_div (prod_pos hrest),
      Nat.div_eq_of_lt hlt, Nat.div_eq_of_lt hlt', Nat.add_zero] at hdiv
    subst hdiv
    rw [ih hrest' (Nat.add_left_cancel heq)]

end Pnet.Lib.MixedRadix

/-! ### Items of one size

A table of items of one size, in a memory whose addresses are words of `w` bits: which
bytes belong to which items, and what it does to fill some bytes. -/
namespace Pnet.Lib

variable {w : Nat} {β : Type*}

/-- The address is one of the `len` from `start` on. -/
def Within (start : BitVec w) (len : Nat) (address : BitVec w) : Prop :=
  (address - start).toNat < len

instance (start : BitVec w) (len : Nat) (address : BitVec w) :
    Decidable (Within start len address) :=
  inferInstanceAs (Decidable (_ < _))

/-- The memory with `value` in the `len` bytes from `start` on. -/
def fill (memory : BitVec w → β) (start : BitVec w) (len : Nat) (value : β) : BitVec w → β :=
  fun address => if Within start len address then value else memory address

/-- Where an item of a table begins. -/
def itemStart (data : BitVec w) (size index : Nat) : BitVec w :=
  data + BitVec.ofNat w (index * size)

variable {start data address : BitVec w} {len size index count : Nat}

theorem within_iff : Within start len address ↔
    ∃ offset < len, address = start + BitVec.ofNat w offset := by
  constructor
  · intro h
    refine ⟨(address - start).toNat, h, ?_⟩
    rw [BitVec.ofNat_toNat, BitVec.setWidth_eq, BitVec.add_comm, BitVec.sub_add_cancel]
  · rintro ⟨offset, hoffset, rfl⟩
    have hsub : start + BitVec.ofNat w offset - start = BitVec.ofNat w offset := by
      rw [BitVec.add_comm, BitVec.add_sub_cancel]
    rw [Within, hsub, BitVec.toNat_ofNat]
    exact (Nat.mod_le _ _).trans_lt hoffset

@[simp] theorem not_within_zero : ¬ Within start 0 address := Nat.not_lt_zero _

theorem within_self (h : 0 < len) : Within start len start := by
  rw [Within, BitVec.sub_self]
  exact h

@[simp] theorem fill_zero (memory : BitVec w → β) (value : β) :
    fill memory start 0 value = memory := by
  funext address
  exact if_neg not_within_zero

/-- The bytes of some items in a row are the bytes from the first of them on. -/
theorem within_items : Within (itemStart data size index) (count * size) address ↔
    ∃ i, index ≤ i ∧ i < index + count ∧ Within (itemStart data size i) size address := by
  simp only [within_iff, itemStart, BitVec.add_assoc, ← BitVec.ofNat_add]
  constructor
  · rintro ⟨offset, hoffset, haddress⟩
    have hsize : 0 < size := Nat.pos_of_mul_pos_left (Nat.zero_lt_of_lt hoffset)
    refine ⟨index + offset / size, Nat.le_add_right .., ?_, offset % size,
      Nat.mod_lt _ hsize, ?_⟩
    · exact Nat.add_lt_add_left (Nat.div_lt_of_lt_mul (Nat.mul_comm .. ▸ hoffset)) _
    · rw [haddress, Nat.add_mul, Nat.add_assoc, Nat.div_add_mod']
  · rintro ⟨i, hfirst, hlast, offset, hoffset, haddress⟩
    obtain ⟨more, rfl⟩ := Nat.exists_eq_add_of_le hfirst
    refine ⟨more * size + offset, ?_, ?_⟩
    · calc more * size + offset < more * size + size := Nat.add_lt_add_left hoffset _
        _ = (more + 1) * size := (Nat.succ_mul ..).symm
        _ ≤ count * size := Nat.mul_le_mul_right _ (by omega)
    · rw [haddress, Nat.add_mul, Nat.add_assoc]

/-- The bytes of an item are bytes of the table. -/
theorem within_of_item (hindex : index < count)
    (h : Within (itemStart data size index) size address) : Within data (count * size) address := by
  have hstart : itemStart data size 0 = data := by
    rw [itemStart, Nat.zero_mul, BitVec.add_zero]
  rw [← hstart, within_items]
  exact ⟨index, Nat.zero_le _, by omega, h⟩

theorem Within.mono (h : Within start len address) {len' : Nat} (hle : len ≤ len') :
    Within start len' address :=
  Nat.lt_of_lt_of_le h hle

end Pnet.Lib
