import Pnet.Image.MetaIndex
import Pnet.Lib.Bits

/-! The sizes that rows are given are the sizes that reading them takes, and the tables of an index
that parses lie one behind the other inside it. -/
namespace Pnet.Image
open Pnet.Lib

/-! ### Descriptions -/

/-- A token that says which table, and not which row; the table has a description. -/
def isTable (token : ILToken) : Bool :=
  token.toNat % 2 ^ 24 == 0 && Nat.blt (token.toNat / 2 ^ 24) 0x2D

/-- An alternative of a mixed column. -/
def isAlternative (token : ILToken) : Bool :=
  token.toNat == 1 || token.toNat == 2 || isTable token

/-- The alternatives of a mixed column use up the values of its low bits, and the first is a
table. -/
def Field.wellFormed : Field → Bool
  | .list token | .tkRef token => isTable token && token.toNat != 0
  | .optGen => false
  | .mixed bits tokens =>
    Nat.ble bits 5 && tokens.length == 2 ^ bits && tokens.head?.any isTable && tokens.all isAlternative
  | _ => true

/-- A list of fields as the descriptions have them. -/
def described (fields : List Field) : Bool :=
  !fields.isEmpty && Nat.ble fields.length 9 && fields.all Field.wellFormed

theorem described_fieldDescriptions {type : Nat} {fields : List Field}
    (hfields : fieldDescriptions type = some fields) : described fields = true := by
  unfold fieldDescriptions at hfields
  split at hfields
  all_goals cases hfields
  all_goals rfl

theorem fieldDescriptions_of_ge {type : Nat} (htype : 0x2D ≤ type) : fieldDescriptions type = none := by
  unfold fieldDescriptions
  split
  all_goals first | rfl | omega

theorem Field.wellFormed_of_described {fields : List Field} (hfields : described fields = true) :
    ∀ field ∈ fields, field.wellFormed = true := by
  unfold described at hfields
  rw [Bool.and_eq_true] at hfields
  exact List.all_eq_true.1 hfields.2

/-! ### Sizes -/

/-- The widths of the references into the heaps. -/
structure RefSizes.Valid (sizes : RefSizes) : Prop where
  strRefSize : sizes.strRefSize = 2 ∨ sizes.strRefSize = 4
  blobRefSize : sizes.blobRefSize = 2 ∨ sizes.blobRefSize = 4
  guidRefSize : sizes.guidRefSize = 2 ∨ sizes.guidRefSize = 4

theorem ILImage.refSizes_valid (image : ILImage) : image.refSizes.Valid := by
  apply RefSizes.Valid.mk
  · cases image.strRefBig <;> simp [ILImage.refSizes]
  · cases image.blobRefBig <;> simp [ILImage.refSizes]
  · cases image.guidRefBig <;> simp [ILImage.refSizes]

variable {image : ILImage} {sizes : RefSizes}

theorem tokenSize_cons {field : Field} {fields : List Field} (hfield : field.wellFormed = true) :
    tokenSize image sizes (field :: fields) =
      fieldSize image sizes field + tokenSize image sizes fields := by
  cases field with
  | optGen => exact absurd hfield Bool.false_ne_true
  | _ => rfl

theorem fieldSize_cases (image : ILImage) (hsizes : sizes.Valid) {field : Field} (hfield : field.wellFormed = true) :
    fieldSize image sizes field = 2 ∨ fieldSize image sizes field = 4 := by
  cases field with
  | strRef => exact hsizes.strRefSize
  | blobRef => exact hsizes.blobRefSize
  | guidRef => exact hsizes.guidRefSize
  | uint16 => exact .inl rfl
  | uint32 => exact .inr rfl
  | optGen => exact absurd hfield Bool.false_ne_true
  | list token =>
    dsimp only [fieldSize]
    cases listBig image token <;> simp
  | tkRef token =>
    dsimp only [fieldSize]
    cases tkRefBig image token <;> simp
  | mixed bits tokens =>
    dsimp only [fieldSize]
    cases mixedBig image bits tokens <;> simp

theorem tokenSize_bounds (image : ILImage) (hsizes : sizes.Valid) {fields : List Field}
    (hfields : ∀ field ∈ fields, field.wellFormed = true) :
    2 * fields.length ≤ tokenSize image sizes fields ∧
      tokenSize image sizes fields ≤ 4 * fields.length := by
  induction fields with
  | nil => exact ⟨le_rfl, le_rfl⟩
  | cons field fields ih =>
    obtain ⟨hfield, hfields⟩ := List.forall_mem_cons.1 hfields
    have hsize := fieldSize_cases image hsizes hfield
    have hrest := ih hfields
    rw [tokenSize_cons hfield, List.length_cons]
    omega

/-- A size fits the byte that it is kept in, and is not zero. -/
theorem tokenSize_described (image : ILImage) (hsizes : sizes.Valid) {fields : List Field}
    (hfields : described fields = true) :
    0 < tokenSize image sizes fields ∧ tokenSize image sizes fields < 2 ^ 8 := by
  have hbounds := tokenSize_bounds image hsizes (Field.wellFormed_of_described hfields)
  unfold described at hfields
  rw [Bool.and_eq_true, Bool.and_eq_true, Bool.not_eq_true', List.isEmpty_eq_false_iff] at hfields
  have hpos := List.length_pos_iff.2 hfields.1.1
  have hle := Nat.le_of_ble_eq_true hfields.1.2
  omega

/-- A size depends on the counts of the described tables only. -/
theorem fieldSize_congr {image' : ILImage} {field : Field} (hfield : field.wellFormed = true)
    (hcount : ∀ type < 0x2D, image'.tokenCount type = image.tokenCount type) :
    fieldSize image' sizes field = fieldSize image sizes field := by
  have htable {token : ILToken} (htoken : isTable token = true) :
      image'.tokenCount (tokenTable token) = image.tokenCount (tokenTable token) := by
    unfold isTable at htoken
    rw [Bool.and_eq_true, Nat.blt_eq] at htoken
    apply hcount
    unfold tokenTable
    rw [BitVec.toNat_ushiftRight, Nat.shiftRight_eq_div_pow]
    exact htoken.2
  cases field with
  | strRef | blobRef | guidRef | uint16 | uint32 | optGen => rfl
  | list token =>
    unfold Field.wellFormed at hfield
    rw [Bool.and_eq_true] at hfield
    have hbig : listBig image' token = listBig image token := by
      unfold listBig
      rw [htable hfield.1]
    dsimp only [fieldSize]
    rw [hbig]
  | tkRef token =>
    unfold Field.wellFormed at hfield
    rw [Bool.and_eq_true] at hfield
    have hbig : tkRefBig image' token = tkRefBig image token := by
      unfold tkRefBig
      rw [htable hfield.1]
    dsimp only [fieldSize]
    rw [hbig]
  | mixed bits tokens =>
    unfold Field.wellFormed at hfield
    rw [Bool.and_eq_true, List.all_eq_true] at hfield
    have hbig : mixedBig image' bits tokens = mixedBig image bits tokens := by
      unfold mixedBig
      rw [Bool.eq_iff_iff, List.any_eq_true, List.any_eq_true]
      apply exists_congr
      intro token
      apply and_congr_right
      intro htoken
      have halt := hfield.2 token htoken
      unfold isAlternative at halt
      rw [Bool.or_eq_true, Bool.or_eq_true, beq_iff_eq, beq_iff_eq] at halt
      rw [decide_eq_true_iff, decide_eq_true_iff]
      obtain (h1 | h2) | htoken := halt
      · have h : token = 1 := BitVec.eq_of_toNat_eq h1
        simp [h]
      · have h : token = 2 := BitVec.eq_of_toNat_eq h2
        simp [h]
      · rw [htable htoken]
    dsimp only [fieldSize]
    rw [hbig]

theorem tokenSize_congr {image' : ILImage} {fields : List Field}
    (hfields : ∀ field ∈ fields, field.wellFormed = true)
    (hcount : ∀ type < 0x2D, image'.tokenCount type = image.tokenCount type) :
    tokenSize image' sizes fields = tokenSize image sizes fields := by
  induction fields with
  | nil => rfl
  | cons field fields ih =>
    obtain ⟨hfield, hfields⟩ := List.forall_mem_cons.1 hfields
    rw [tokenSize_cons hfield, tokenSize_cons hfield, fieldSize_congr hfield hcount, ih hfields]

/-! ### Rows -/

theorem drop_eq_cons {α : Type} {l : List α} {posn : Nat} (hposn : posn < l.length) :
    ∃ a, l.drop posn = a :: l.drop (posn + 1) :=
  ⟨_, List.drop_eq_getElem_cons hposn⟩

theorem ilReadUInt16_of_le {bytes : List ILUInt8} {posn : Nat} (hroom : posn + 2 ≤ bytes.length) :
    ∃ value, ilReadUInt16 bytes posn = .ok value := by
  obtain ⟨b0, h0⟩ := drop_eq_cons (show posn < bytes.length by omega)
  obtain ⟨b1, h1⟩ := drop_eq_cons (show posn + 1 < bytes.length by omega)
  unfold ilReadUInt16
  rw [h0, h1]
  exact ⟨_, rfl⟩

theorem ilReadUInt32_of_le {bytes : List ILUInt8} {posn : Nat} (hroom : posn + 4 ≤ bytes.length) :
    ∃ value, ilReadUInt32 bytes posn = .ok value := by
  obtain ⟨b0, h0⟩ := drop_eq_cons (show posn < bytes.length by omega)
  obtain ⟨b1, h1⟩ := drop_eq_cons (show posn + 1 < bytes.length by omega)
  obtain ⟨b2, h2⟩ := drop_eq_cons (show posn + 1 + 1 < bytes.length by omega)
  obtain ⟨b3, h3⟩ := drop_eq_cons (show posn + 1 + 1 + 1 < bytes.length by omega)
  unfold ilReadUInt32
  rw [h0, h1, h2, h3]
  exact ⟨_, rfl⟩

theorem ilReadUInt64_of_le {bytes : List ILUInt8} {posn : Nat} (hroom : posn + 8 ≤ bytes.length) :
    ∃ value, ilReadUInt64 bytes posn = .ok value := by
  obtain ⟨low, hlow⟩ := ilReadUInt32_of_le (show posn + 4 ≤ bytes.length by omega)
  obtain ⟨high, hhigh⟩ := ilReadUInt32_of_le (show posn + 4 + 4 ≤ bytes.length by omega)
  unfold ilReadUInt64
  rw [hlow, hhigh]
  exact ⟨_, rfl⟩

theorem readWidth_of_le {big : Bool} {bytes : List ILUInt8} {posn : Nat}
    (hroom : posn + (if big then 4 else 2) ≤ bytes.length) :
    ∃ value, readWidth big bytes posn = .ok value := by
  cases big with
  | true => exact ilReadUInt32_of_le hroom
  | false => exact ilReadUInt16_of_le hroom

/-- The row was read to its end, or refused. -/
def ReadTo (posn : Nat) (result : Except MetaStop (List ILUInt32 × Nat)) : Prop :=
  (∃ values, result = .ok (values, posn)) ∨ result = .error .badMeta

theorem refSize_eq {size : Nat} (hsize : size = 2 ∨ size = 4) :
    (if decide (size ≠ 2) = true then 4 else 2) = size := by
  obtain rfl | rfl := hsize <;> rfl

/-- The low bits of a mixed reference choose an alternative. -/
theorem mixed_getElem? {bits : Nat} {tokens : List ILToken}
    (hfield : (Field.mixed bits tokens).wellFormed = true) (temp : ILUInt32) :
    ∃ token, tokens[(temp &&& (((1 : ILUInt32) <<< bits) - 1)).toNat]? = some token := by
  unfold Field.wellFormed at hfield
  rw [Bool.and_eq_true, Bool.and_eq_true, Bool.and_eq_true, beq_iff_eq] at hfield
  have hbits := Nat.le_of_ble_eq_true hfield.1.1.1
  have hlength := hfield.1.1.2
  have hpow : 2 ^ bits ≤ 2 ^ 5 := Nat.pow_le_pow_right (by decide) hbits
  have hpos := Nat.two_pow_pos bits
  have hshift : ((1 : ILUInt32) <<< bits).toNat = 2 ^ bits := by
    rw [Bits.toNat_shiftLeft_of_lt] <;> simp <;> omega
  have hmask : (((1 : ILUInt32) <<< bits) - 1).toNat = 2 ^ bits - 1 := by
    rw [BitVec.toNat_sub, hshift]
    simp
    omega
  have hlt : (temp &&& (((1 : ILUInt32) <<< bits) - 1)).toNat < tokens.length := by
    rw [Bits.toNat_and_mask temp _ bits hmask, hlength]
    exact Nat.mod_lt _ hpos
  exact ⟨_, List.getElem?_eq_getElem hlt⟩

theorem parseFields_cons {field : Field} (hfield : field.wellFormed = true) (fields : List Field)
    (bytes : List ILUInt8) (posn : Nat) :
    parseFields image sizes bytes (field :: fields) posn = (do
      let (value, posn) ← parseField image sizes bytes posn field
      let (values, posn) ← parseFields image sizes bytes fields posn
      return (value ++ values, posn)) := by
  cases field with
  | optGen => exact absurd hfield Bool.false_ne_true
  | _ => rfl

theorem parseField_readTo (hsizes : sizes.Valid) {field : Field} (hfield : field.wellFormed = true)
    {bytes : List ILUInt8} {posn : Nat}
    (hroom : posn + fieldSize image sizes field ≤ bytes.length) :
    ReadTo (posn + fieldSize image sizes field) (parseField image sizes bytes posn field) := by
  cases field with
  | strRef =>
    obtain ⟨temp, htemp⟩ := readWidth_of_le (show posn + (if decide (sizes.strRefSize ≠ 2) = true
      then 4 else 2) ≤ bytes.length by rwa [refSize_eq hsizes.strRefSize])
    dsimp only [parseField]
    rw [htemp]
    dsimp only [bind, Except.bind, pure, Except.pure, throw, throwThe, MonadExceptOf.throw]
    split
    · exact .inr rfl
    · exact .inl ⟨_, rfl⟩
  | blobRef =>
    obtain ⟨temp, htemp⟩ := readWidth_of_le (show posn + (if decide (sizes.blobRefSize ≠ 2) = true
      then 4 else 2) ≤ bytes.length by rwa [refSize_eq hsizes.blobRefSize])
    dsimp only [parseField]
    rw [htemp]
    dsimp only [bind, Except.bind, pure, Except.pure, throw, throwThe, MonadExceptOf.throw]
    split
    · exact .inr rfl
    · split
      · split
        · exact .inr rfl
        · exact .inl ⟨_, rfl⟩
      · exact .inl ⟨_, rfl⟩
  | guidRef =>
    have hwidth : (if sizes.guidRefSize ≠ 2 then 4 else 2) = sizes.guidRefSize := by
      obtain hsize | hsize := hsizes.guidRefSize <;> rw [hsize] <;> rfl
    obtain ⟨temp, htemp⟩ := readWidth_of_le (show posn + (if decide (sizes.guidRefSize ≠ 2) = true
      then 4 else 2) ≤ bytes.length by rwa [refSize_eq hsizes.guidRefSize])
    dsimp only [parseField]
    rw [htemp]
    dsimp only [bind, Except.bind, pure, Except.pure, throw, throwThe, MonadExceptOf.throw, fieldSize]
    rw [hwidth]
    split
    · split
      · exact .inr rfl
      · split
        · exact .inr rfl
        · exact .inl ⟨_, rfl⟩
    · exact .inl ⟨_, rfl⟩
  | uint16 =>
    obtain ⟨value, hvalue⟩ := ilReadUInt16_of_le hroom
    dsimp only [parseField]
    rw [hvalue]
    exact .inl ⟨_, rfl⟩
  | uint32 =>
    obtain ⟨value, hvalue⟩ := ilReadUInt32_of_le hroom
    dsimp only [parseField]
    rw [hvalue]
    exact .inl ⟨_, rfl⟩
  | list token =>
    have hread : ∃ temp, readWidth (listBig image token) bytes posn = .ok temp :=
      readWidth_of_le hroom
    obtain ⟨temp, htemp⟩ := hread
    dsimp only [parseField]
    rw [htemp]
    dsimp only [bind, Except.bind, pure, Except.pure, throw, throwThe, MonadExceptOf.throw]
    split
    · exact .inl ⟨_, rfl⟩
    · split
      · exact .inl ⟨_, rfl⟩
      · exact .inr rfl
  | optGen => exact absurd hfield Bool.false_ne_true
  | tkRef token =>
    have hread : ∃ temp, readWidth (tkRefBig image token) bytes posn = .ok temp :=
      readWidth_of_le hroom
    obtain ⟨temp, htemp⟩ := hread
    dsimp only [parseField]
    rw [htemp]
    dsimp only [bind, Except.bind, pure, Except.pure, throw, throwThe, MonadExceptOf.throw]
    split
    · exact .inl ⟨_, rfl⟩
    · exact .inr rfl
  | mixed bits tokens =>
    have hread : ∃ temp, readWidth (mixedBig image bits tokens) bytes posn = .ok temp :=
      readWidth_of_le hroom
    obtain ⟨temp, htemp⟩ := hread
    obtain ⟨token, htoken⟩ := mixed_getElem? hfield temp
    dsimp only [parseField]
    rw [htemp]
    dsimp only [bind, Except.bind, pure, Except.pure, throw, throwThe, MonadExceptOf.throw]
    rw [htoken]
    dsimp only
    split
    · split
      · exact .inl ⟨_, rfl⟩
      · split
        · exact .inl ⟨_, rfl⟩
        · exact .inr rfl
    · split
      · exact .inr rfl
      · exact .inl ⟨_, rfl⟩

theorem parseFields_readTo (hsizes : sizes.Valid) {fields : List Field}
    (hfields : ∀ field ∈ fields, field.wellFormed = true) {bytes : List ILUInt8} {posn : Nat}
    (hroom : posn + tokenSize image sizes fields ≤ bytes.length) :
    ReadTo (posn + tokenSize image sizes fields) (parseFields image sizes bytes fields posn) := by
  induction fields generalizing posn with
  | nil => exact .inl ⟨[], rfl⟩
  | cons field fields ih =>
    obtain ⟨hfield, hfields⟩ := List.forall_mem_cons.1 hfields
    rw [tokenSize_cons hfield, ← Nat.add_assoc] at hroom ⊢
    rw [parseFields_cons hfield]
    have hread := parseField_readTo hsizes hfield
      (show posn + fieldSize image sizes field ≤ bytes.length by omega)
    obtain ⟨values, hvalues⟩ | hbad := hread
    · rw [hvalues]
      dsimp only [bind, Except.bind]
      obtain ⟨rest, hrest⟩ | hbad := ih hfields hroom
      · rw [hrest]
        exact .inl ⟨_, rfl⟩
      · rw [hbad]
        exact .inr rfl
    · rw [hbad]
      exact .inr rfl

end Pnet.Image
