import Pnet.Engine.LayoutSpec
import Pnet.Lib.Placement

/-! Alignments are powers of two, and the 32-bit sums of the layout are those of the
placement with a running size kept modulo `2 ^ 32`. -/
namespace Pnet.Engine
open Pnet.Lib Pnet.Image

/-- A power of two that a 32-bit word holds. -/
def IsPow (a : ILUInt32) : Prop := ∃ k < 32, a.toNat = 2 ^ k

theorem IsPow.pos {a : ILUInt32} (h : IsPow a) : 0 < a.toNat := by
  obtain ⟨k, _, hk⟩ := h
  rw [hk]
  exact Nat.two_pow_pos k

theorem IsPow.dvd {a : ILUInt32} (h : IsPow a) : a.toNat ∣ 2 ^ 32 := by
  obtain ⟨k, hk, heq⟩ := h
  rw [heq]
  exact Nat.pow_dvd_pow 2 (Nat.le_of_lt hk)

theorem isPow_one : IsPow 1 := ⟨0, by decide, rfl⟩

theorem isPow_two : IsPow 2 := ⟨1, by decide, rfl⟩

theorem isPow_four : IsPow 4 := ⟨2, by decide, rfl⟩

theorem isPow_eight : IsPow 8 := ⟨3, by decide, rfl⟩

theorem IsPow.maxAlign {a b : ILUInt32} (ha : IsPow a) (hb : IsPow b) : IsPow (maxAlign a b) := by
  unfold Engine.maxAlign
  split
  · exact hb
  · exact ha

theorem toNat_maxAlign (a b : ILUInt32) : (maxAlign a b).toNat = max a.toNat b.toNat := by
  unfold maxAlign
  split
  · rename_i h
    exact (Nat.max_eq_right (Nat.le_of_lt h)).symm
  · rename_i h
    exact (Nat.max_eq_left (Nat.le_of_not_lt h)).symm

theorem toNat_alignTo (size : ILUInt32) {a : ILUInt32} (ha : IsPow a) :
    (alignTo size a).toNat = roundUp size.toNat a.toNat % 2 ^ 32 := by
  have hlt := Nat.mod_lt size.toNat ha.pos
  unfold alignTo roundUp
  have hzero : size % a = 0 ↔ size.toNat % a.toNat = 0 := by
    rw [← BitVec.toNat_inj, BitVec.toNat_umod]
    rfl
  by_cases h : size % a = 0
  · rw [if_neg (not_not.2 h), if_neg (not_not.2 (hzero.1 h))]
    exact (Nat.mod_eq_of_lt size.isLt).symm
  · rw [if_pos h, if_pos fun h' => h (hzero.2 h')]
    rw [BitVec.toNat_add, BitVec.toNat_sub_of_le, BitVec.toNat_umod]
    rw [BitVec.le_def, BitVec.toNat_umod]
    exact Nat.le_of_lt hlt

/-! ### Every alignment is a power of two -/

variable {md : Metadata} {pf : Platform} {info : ClassId}

theorem layoutOptions_packingSize {options : LayoutOptions}
    (h : layoutOptions md info = some options) :
    options.packingSize = 0 ∨ IsPow options.packingSize := by
  unfold layoutOptions at h
  split at h
  · split at h
    · cases h
      exact .inl rfl
    · split at h
      · rename_i hmem
        cases h
        simp only [List.mem_cons, List.not_mem_nil, or_false] at hmem
        obtain h | h | h | h | h := hmem
        · exact .inl h
        · exact .inr (h ▸ isPow_one)
        · exact .inr (h ▸ isPow_two)
        · exact .inr (h ▸ isPow_four)
        · exact .inr (h ▸ isPow_eight)
      · cases h
  · cases h
    exact .inl rfl

theorem isPow_packAlignment {packingSize a : ILUInt32}
    (hpack : packingSize = 0 ∨ IsPow packingSize) (ha : IsPow a) :
    IsPow (packAlignment packingSize a) := by
  unfold packAlignment
  split
  · rename_i h
    cases hpack with
    | inl hzero => exact absurd hzero h.1
    | inr hpow => exact hpow
  · exact ha

theorem isPow_primitiveLayout {elem : Nat} {layout : InstanceLayout}
    (h : primitiveLayout pf elem = some layout) : IsPow layout.alignment := by
  unfold primitiveLayout at h
  split at h
  all_goals cases h
  · exact isPow_one
  · exact isPow_one
  · exact isPow_one
  · exact isPow_two
  · exact isPow_two
  · exact isPow_two
  · exact isPow_four
  · exact isPow_four
  · exact pf.int64.isPow
  · exact pf.int64.isPow
  · split
    · exact isPow_four
    · exact pf.int64.isPow
  · split
    · exact isPow_four
    · exact pf.int64.isPow
  · exact pf.float32.isPow
  · exact pf.float64.isPow
  · exact pf.nativeFloat.isPow
  · exact pf.typedRef.isPow

/-- The largest alignment so far, with the placement of the fields going on. -/
theorem isPow_placeFields {options : LayoutOptions}
    (hpack : options.packingSize = 0 ∨ IsPow options.packingSize) (fields : List MemberId)
    {layouts : List InstanceLayout} (hlayouts : ∀ layout ∈ layouts, IsPow layout.alignment)
    {placing : Placing} (hplacing : IsPow placing.maxAlignment) :
    IsPow (placeFields md options fields layouts placing).maxAlignment := by
  induction fields generalizing layouts placing with
  | nil => exact hplacing
  | cons f fields ih =>
    cases layouts with
    | nil => exact hplacing
    | cons layout layouts =>
      apply ih fun l hl => hlayouts l (List.mem_cons_of_mem _ hl)
      exact hplacing.maxAlign (isPow_packAlignment hpack (hlayouts layout (List.mem_cons_self ..)))

theorem alignment_placeFields (options : LayoutOptions) (fields : List MemberId)
    (layouts : List InstanceLayout) (placing : Placing) :
    (placeFields md options fields layouts placing).layout.alignment =
      placing.layout.alignment := by
  induction fields generalizing layouts placing with
  | nil => rfl
  | cons f fields ih =>
    cases layouts with
    | nil => rfl
    | cons layout layouts => exact ih layouts _

theorem fieldTypes_forall {typeLayout : ILType → Option InstanceLayout}
    {p : InstanceLayout → Prop} (hp : ∀ type layout, typeLayout type = some layout → p layout)
    {fields : List MemberId} {layouts : List InstanceLayout}
    (h : fieldTypes md typeLayout fields = some layouts) : ∀ layout ∈ layouts, p layout := by
  induction fields generalizing layouts with
  | nil =>
    cases h
    exact nofun
  | cons f fields ih =>
    unfold fieldTypes at h
    split at h
    · rename_i layout rest hlayout hrest
      cases h
      intro l hl
      cases List.mem_cons.1 hl with
      | inl heq => exact heq ▸ hp _ _ hlayout
      | inr hl => exact ih hrest l hl
    · cases h

theorem isPow_instance (fuel : Nat) :
    (∀ info layout, classInstance md pf fuel info = some layout → IsPow layout.alignment) ∧
    (∀ type layout, typeInstance md pf fuel type = some layout → IsPow layout.alignment) := by
  induction fuel with
  | zero =>
    constructor
    · exact fun _ _ h => nomatch h
    · exact fun _ _ h => nomatch h
  | succ fuel ih =>
    constructor
    · intro info layout h
      unfold classInstance classInstanceStep at h
      split at h
      · rename_i parent options layouts hparent hoptions hlayouts
        cases h
        have hbase : IsPow parent.alignment := by
          unfold parentInstance at hparent
          split at hparent
          · exact ih.1 _ _ hparent
          · cases hparent
            exact isPow_one
        apply IsPow.maxAlign
        · rw [alignment_placeFields]
          exact hbase
        · exact isPow_placeFields (layoutOptions_packingSize hoptions) _
            (fieldTypes_forall ih.2 hlayouts) isPow_one
      · cases h
    · intro type layout h
      unfold typeInstance typeInstanceStep at h
      split at h
      · exact isPow_primitiveLayout h
      · split at h
        · exact ih.1 _ _ h
        · exact ih.2 _ _ h
      · cases h
        exact pf.pointer.isPow

theorem ClassLaysOut.isPow {layout : InstanceLayout} (h : ClassLaysOut md pf info layout) :
    IsPow layout.alignment := by
  obtain ⟨fuel, h⟩ := h
  exact (isPow_instance fuel).1 _ _ h

theorem TypeLaysOut.isPow {type : ILType} {layout : InstanceLayout}
    (h : TypeLaysOut md pf type layout) : IsPow layout.alignment := by
  obtain ⟨fuel, h⟩ := h
  exact (isPow_instance fuel).2 _ _ h

end Pnet.Engine
