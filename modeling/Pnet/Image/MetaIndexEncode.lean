import Pnet.Image.MetaIndexSound
import Pnet.Lib.Ends

/-! Rows that are written and read again. The tables with many rows and the empty lists are where
the writer and the reader disagree. -/
namespace Pnet.Image
open Pnet.Lib Pnet.Lib.Bits

/-! ### Valid rows -/

/-- Widths as they are derived from the sizes of the heaps, and tables whose rows have tokens. -/
structure ILImage.Valid (image : ILImage) : Prop where
  tokenCount : ∀ type, (image.tokenCount type).toNat < 0x00FFFFFF
  strRef : image.strRefBig = false → image.stringPoolSize.toNat ≤ 2 ^ 16
  blobRef : image.blobRefBig = false → image.blobPool.length ≤ 2 ^ 16
  blobPool : image.blobPool.length < 2 ^ 32
  guidRef : image.guidRefBig = false → ∀ size, image.guidSize = some size → size.toNat < 2 ^ 20

/-- The token of a row of a table. -/
def IsRow (image : ILImage) (token value : ILToken) : Prop :=
  token.toNat < value.toNat ∧
    value.toNat ≤ token.toNat + (image.tokenCount (tokenTable token)).toNat

/-- The values that a column can have. A list begins at a row, or behind the last one, or has no
value; a blob is known by its offset, and by what lies there. -/
def ValidColumn (image : ILImage) : Field → List ILUInt32 → Prop
  | .strRef, [value] => value < image.stringPoolSize
  | .blobRef, [raw, value, len] =>
    raw = 0 ∧ value = 0 ∧ len = 0 ∨
      raw ≠ 0 ∧ raw.toNat < image.blobPool.length ∧
        ∃ data, ilMetaUncompressData ⟨image.blobPool.drop raw.toNat, false⟩ = (len, ⟨data, false⟩) ∧
          len.toNat ≤ data.length ∧ value = BitVec.ofNat 32 (image.blobPool.length - data.length)
  | .guidRef, [value] =>
    value = 0xFFFFFFFF ∨ ∃ size, image.guidSize = some size ∧ value.toNat % 16 = 0 ∧
      value.toNat + 16 ≤ size.toNat
  | .uint16, [value] => value.toNat < 2 ^ 16
  | .uint32, [_] => True
  | .list token, [value] =>
    value = 0 ∨ IsRow image token value ∨
      value = token ||| (image.tokenCount (tokenTable token) + 1)
  | .tkRef token, [value] => IsRow image token value
  | .mixed _ tokens, [value] =>
    value = 0 ∨ value = tokenString ∧ 2 ∈ tokens ∨
      ∃ token ∈ tokens, isTable token = true ∧ IsRow image token value
  | _, _ => False

/-- The number of values of a column. -/
def Field.columns : Field → Nat
  | .blobRef => 3
  | .optGen => 0
  | _ => 1

def ValidRow (image : ILImage) : List Field → List ILUInt32 → Prop
  | [], values => values = []
  | field :: fields, values =>
    ValidColumn image field (values.take field.columns) ∧
      ValidRow image fields (values.drop field.columns)

/-- The values as the reader spells them: an empty list that begins behind the last row has no
value. -/
def canonicalColumn (image : ILImage) : Field → List ILUInt32 → List ILUInt32
  | .list token, [value] =>
    if value = token ||| (image.tokenCount (tokenTable token) + 1) then [0] else [value]
  | _, values => values

def canonicalRow (image : ILImage) : List Field → List ILUInt32 → List ILUInt32
  | [], values => values
  | field :: fields, values =>
    canonicalColumn image field (values.take field.columns) ++
      canonicalRow image fields (values.drop field.columns)

/-- A column that comes back: a list has a value, and rows in its table are counted in 16 bits, and
so are the rows of the one table that a token is about. -/
def KeptColumn (image : ILImage) : Field → List ILUInt32 → Prop
  | .list token, values => values ≠ [0] ∧ listBig image token = false
  | .tkRef token, _ => tkRefBig image token = false
  | _, _ => True

def KeptRow (image : ILImage) : List Field → List ILUInt32 → Prop
  | [], _ => True
  | field :: fields, values =>
    KeptColumn image field (values.take field.columns) ∧
      KeptRow image fields (values.drop field.columns)

/-- The row is written in as many bytes as its table has for it, and they read as the row. -/
def RowRoundTrips (image : ILImage) (token : ILToken) (values : List ILUInt32) : Prop :=
  ∃ fields bytes, fieldDescriptions (tokenTable token) = some fields ∧
    ilImageRawTokenEncode image token values = some bytes ∧
    bytes.length = tokenSize image image.refSizes fields ∧
    ∀ pre post, parseToken image image.refSizes (some fields) (pre ++ bytes ++ post) pre.length =
      .ok (canonicalRow image fields values, pre.length + tokenSize image image.refSizes fields)

/-! ### Words -/

theorem drop_pre (pre post bytes : List ILUInt8) :
    (pre ++ bytes ++ post).drop pre.length = bytes ++ post := by
  rw [List.append_assoc, List.drop_left]

theorem ilReadUInt16_write16 (pre post : List ILUInt8) (value : ILUInt32) :
    ilReadUInt16 (pre ++ write16 value ++ post) pre.length =
      .ok ((value.setWidth 16).setWidth 32) := by
  unfold ilReadUInt16
  rw [drop_pre]
  unfold write16
  dsimp only [List.cons_append, List.nil_append]
  congr 1
  apply BitVec.eq_of_toNat_eq
  rw [toNat_join2, toNat_setWidth_ushiftRight, BitVec.toNat_setWidth, BitVec.toNat_setWidth,
    BitVec.toNat_setWidth]
  omega

theorem ilReadUInt32_write32 (pre post : List ILUInt8) (value : ILUInt32) :
    ilReadUInt32 (pre ++ write32 value ++ post) pre.length = .ok value := by
  unfold ilReadUInt32
  rw [drop_pre]
  unfold write32
  dsimp only [List.cons_append, List.nil_append]
  congr 1
  apply BitVec.eq_of_toNat_eq
  rw [toNat_join4, toNat_setWidth_ushiftRight, toNat_setWidth_ushiftRight,
    toNat_setWidth_ushiftRight, BitVec.toNat_setWidth]
  have hvalue := value.isLt
  omega

theorem length_writeWidth (big : Bool) (value : ILUInt32) :
    (writeWidth big value).length = if big then 4 else 2 := by
  cases big <;> rfl

/-- What is left of a value in one of the two widths. -/
def fitted (big : Bool) (value : ILUInt32) : ILUInt32 :=
  if big then value else (value.setWidth 16).setWidth 32

theorem readWidth_writeWidth (big : Bool) (pre post : List ILUInt8) (value : ILUInt32) :
    readWidth big (pre ++ writeWidth big value ++ post) pre.length = .ok (fitted big value) := by
  cases big with
  | true => exact ilReadUInt32_write32 pre post value
  | false => exact ilReadUInt16_write16 pre post value

theorem toNat_fitted_false (value : ILUInt32) :
    (fitted false value).toNat = value.toNat % 2 ^ 16 := by
  unfold fitted
  rw [if_neg Bool.false_ne_true, BitVec.toNat_setWidth, BitVec.toNat_setWidth]
  omega

theorem fitted_of_lt {big : Bool} {value : ILUInt32} (h : big = false → value.toNat < 2 ^ 16) :
    fitted big value = value := by
  cases big with
  | true => rfl
  | false =>
    apply BitVec.eq_of_toNat_eq
    rw [toNat_fitted_false]
    exact Nat.mod_eq_of_lt (h rfl)

/-! ### Tokens -/

theorem toNat_tableToken {token : ILToken} (htoken : isTable token = true) :
    token.toNat % 2 ^ 24 = 0 ∧ token.toNat < 0x2D * 2 ^ 24 := by
  unfold isTable at htoken
  rw [Bool.and_eq_true, beq_iff_eq, Nat.blt_eq] at htoken
  omega

theorem toNat_or_row {token n : ILToken} (htoken : isTable token = true) (hn : n.toNat < 2 ^ 24) :
    (token ||| n).toNat = token.toNat + n.toNat :=
  toNat_or_low token n 24 (toNat_tableToken htoken).1 hn

theorem toNat_and_tokenMask (value : ILToken) :
    (value &&& tokenMask).toNat = 2 ^ 24 * (value.toNat / 2 ^ 24) := by
  have hvalue := value.isLt
  rw [toNat_and_field value tokenMask 24 8 rfl]
  omega

theorem toNat_and_not_tokenMask (value : ILToken) :
    (value &&& ~~~tokenMask).toNat = value.toNat % 2 ^ 24 :=
  toNat_and_mask value (~~~tokenMask) 24 rfl

/-! ### Mixed references -/

/-- A token is written with the number of an alternative like this. -/
def Matches (value alternative : ILToken) : Prop :=
  alternative = value &&& tokenMask ∨ alternative = 2 ∧ value &&& tokenMask = tokenString

theorem mixedTag_cases (value : ILToken) (tokens : List ILToken) (val val2 : ILUInt32) :
    (mixedTag value tokens val val2 = val ∧ ∀ token ∈ tokens, ¬ Matches value token) ∨
      ∃ i token, tokens[i]? = some token ∧ Matches value token ∧
        mixedTag value tokens val val2 = val2 + BitVec.ofNat 32 i := by
  induction tokens generalizing val val2 with
  | nil => exact .inl ⟨rfl, fun _ h => absurd h List.not_mem_nil⟩
  | cons temp tokens ih =>
    unfold mixedTag
    obtain ⟨hval, hnone⟩ | ⟨i, token, hi, hmatch, hval⟩ := ih _ (val2 + 1)
    · by_cases hmatch : Matches value temp
      · refine .inr ⟨0, temp, rfl, hmatch, ?_⟩
        rw [hval]
        obtain h | h := hmatch
        · rw [if_pos h]
          simp
        · rw [if_pos h]
          simp
      · refine .inl ⟨?_, List.forall_mem_cons.2 ⟨hmatch, hnone⟩⟩
        rw [hval]
        rw [if_neg fun h => hmatch (.inr h), if_neg fun h => hmatch (.inl h)]
    · refine .inr ⟨i + 1, token, hi, hmatch, ?_⟩
      rw [hval, BitVec.add_assoc]
      congr 1
      apply BitVec.eq_of_toNat_eq
      rw [BitVec.toNat_add, BitVec.toNat_ofNat, BitVec.toNat_ofNat]
      simp
      omega

/-- The alternatives fit into the low bits. -/
theorem mixed_wellFormed {bits : Nat} {tokens : List ILToken}
    (hfield : (Field.mixed bits tokens).wellFormed = true) :
    bits ≤ 5 ∧ tokens.length = 2 ^ bits ∧ tokens.head?.any isTable = true ∧
      ∀ token ∈ tokens, token = 1 ∨ token = 2 ∨ isTable token = true := by
  unfold Field.wellFormed at hfield
  rw [Bool.and_eq_true, Bool.and_eq_true, Bool.and_eq_true, beq_iff_eq, List.all_eq_true] at hfield
  refine ⟨Nat.le_of_ble_eq_true hfield.1.1.1, hfield.1.1.2, hfield.1.2, ?_⟩
  intro token htoken
  have halt := hfield.2 token htoken
  unfold isAlternative at halt
  rw [Bool.or_eq_true, Bool.or_eq_true, beq_iff_eq, beq_iff_eq] at halt
  obtain (h1 | h2) | htable := halt
  · exact .inl (BitVec.eq_of_toNat_eq h1)
  · exact .inr (.inl (BitVec.eq_of_toNat_eq h2))
  · exact .inr (.inr htable)

/-- A row and a number of an alternative, put together and taken apart. -/
theorem mixed_join {bits n i : Nat} {tag row : ILUInt32} (hbits : bits ≤ 5) (hi : i < 2 ^ bits)
    (htag : tag.toNat = i) (hrow : row.toNat = n) (hn : n < 2 ^ 24) :
    (tag ||| (row <<< bits)).toNat = n * 2 ^ bits + i ∧
      ((tag ||| (row <<< bits)) >>> bits).toNat = n ∧
      ((tag ||| (row <<< bits)) &&& (((1 : ILUInt32) <<< bits) - 1)).toNat = i := by
  have hpow : 2 ^ bits ≤ 2 ^ 5 := Nat.pow_le_pow_right (by decide) hbits
  have hpos := Nat.two_pow_pos bits
  have hlt : n * 2 ^ bits < 2 ^ 32 := by
    calc n * 2 ^ bits ≤ n * 2 ^ 5 := Nat.mul_le_mul_left n hpow
      _ < 2 ^ 32 := by omega
  have hshift : (row <<< bits).toNat = n * 2 ^ bits := by
    rw [toNat_shiftLeft_of_lt _ _ (by rwa [hrow]), hrow]
  have hjoin : (tag ||| (row <<< bits)).toNat = n * 2 ^ bits + i := by
    rw [toNat_or_tag tag _ bits (by rwa [htag]) (by rw [hshift]; exact Nat.mul_mod_left _ _), htag,
      hshift, Nat.add_comm]
  have hone : ((1 : ILUInt32) <<< bits).toNat = 2 ^ bits := by
    rw [toNat_shiftLeft_of_lt]
    · simp
    · simp
      omega
  have hmask : (((1 : ILUInt32) <<< bits) - 1).toNat = 2 ^ bits - 1 := by
    rw [BitVec.toNat_sub, hone]
    simp
    omega
  refine ⟨hjoin, ?_, ?_⟩
  · rw [BitVec.toNat_ushiftRight, Nat.shiftRight_eq_div_pow, hjoin, Nat.mul_comm,
      Nat.mul_add_div hpos, Nat.div_eq_of_lt hi, Nat.add_zero]
  · rw [toNat_and_mask _ _ bits hmask, hjoin, Nat.mul_comm, Nat.mul_add_mod, Nat.mod_eq_of_lt hi]

/-! ### Columns -/

/-- The bytes of a column, and what becomes of them. -/
structure Written (image : ILImage) (field : Field) (values : List ILUInt32) (bytes : List ILUInt8) :
    Prop where
  encode : ∀ rest, encodeField image field (values ++ rest) = some (bytes, rest)
  length : bytes.length = fieldSize image image.refSizes field
  kept : KeptColumn image field values → ∀ pre post, ∃ posn,
    parseField image image.refSizes (pre ++ bytes ++ post) pre.length field =
      .ok (canonicalColumn image field values, posn)
  lost : ¬ KeptColumn image field values → ∀ pre post posn,
    parseField image image.refSizes (pre ++ bytes ++ post) pre.length field ≠
      .ok (canonicalColumn image field values, posn)

variable {image : ILImage}

theorem strRefSize_ne_two (image : ILImage) :
    decide (image.refSizes.strRefSize ≠ 2) = image.strRefBig := by
  unfold ILImage.refSizes
  cases image.strRefBig <;> rfl

theorem blobRefSize_ne_two (image : ILImage) :
    decide (image.refSizes.blobRefSize ≠ 2) = image.blobRefBig := by
  unfold ILImage.refSizes
  cases image.blobRefBig <;> rfl

theorem guidRefSize_ne_two (image : ILImage) :
    decide (image.refSizes.guidRefSize ≠ 2) = image.guidRefBig := by
  unfold ILImage.refSizes
  cases image.guidRefBig <;> rfl

theorem written_strRef (himage : image.Valid) {value : ILUInt32} (hvalue : value < image.stringPoolSize) :
    Written image .strRef [value] (writeWidth image.strRefBig value) where
  encode _ := rfl
  length := length_writeWidth _ _
  kept := by
    intro _ pre post
    have hfits : fitted image.strRefBig value = value := by
      apply fitted_of_lt
      intro hbig
      exact (show value.toNat < image.stringPoolSize.toNat from hvalue).trans_le (himage.strRef hbig)
    refine ⟨pre.length + image.refSizes.strRefSize, ?_⟩
    dsimp only [parseField]
    rw [strRefSize_ne_two, readWidth_writeWidth, hfits]
    dsimp only [bind, Except.bind]
    rw [if_neg (BitVec.not_le.2 hvalue)]
    rfl
  lost h := absurd trivial h

theorem written_blobRef (himage : image.Valid) {raw value len : ILUInt32}
    (hvalid : ValidColumn image .blobRef [raw, value, len]) :
    Written image .blobRef [raw, value, len] (writeWidth image.blobRefBig raw) where
  encode _ := rfl
  length := length_writeWidth _ _
  kept := by
    intro _ pre post
    have hfits : fitted image.blobRefBig raw = raw := by
      apply fitted_of_lt
      intro hbig
      obtain ⟨rfl, -, -⟩ | ⟨-, hlt, -⟩ := hvalid
      · decide
      · exact hlt.trans_le (himage.blobRef hbig)
    refine ⟨pre.length + image.refSizes.blobRefSize, ?_⟩
    dsimp only [parseField]
    rw [blobRefSize_ne_two, readWidth_writeWidth, hfits]
    dsimp only [bind, Except.bind]
    obtain ⟨rfl, rfl, rfl⟩ | ⟨hne, hlt, data, hread, hlen, rfl⟩ := hvalid
    · rfl
    · rw [if_neg fun h => Nat.not_le.2 hlt h.2, if_pos hne, hread]
      dsimp only
      rw [if_neg fun h => h.elim (Nat.not_lt.2 hlen) Bool.false_ne_true]
      rfl
  lost h := absurd trivial h

theorem written_guidRef (himage : image.Valid) {value : ILUInt32}
    (hvalid : ValidColumn image .guidRef [value]) :
    Written image .guidRef [value]
      (writeWidth image.guidRefBig (if value = 0xFFFFFFFF then 0 else value / 16 + 1)) where
  encode _ := rfl
  length := length_writeWidth _ _
  kept := by
    intro _ pre post
    refine ⟨pre.length + if image.refSizes.guidRefSize ≠ 2 then 4 else 2, ?_⟩
    dsimp only [parseField]
    rw [guidRefSize_ne_two, readWidth_writeWidth]
    dsimp only [bind, Except.bind]
    obtain rfl | ⟨size, hsize, hmod, hle⟩ := hvalid
    · rw [if_pos rfl, fitted_of_lt fun _ => by decide]
      rfl
    · have hlt := size.isLt
      have hne : value ≠ 0xFFFFFFFF := by
        rintro rfl
        exact absurd hmod (by decide)
      have hval : (value / 16 + 1).toNat = value.toNat / 16 + 1 := by
        rw [BitVec.toNat_add, BitVec.toNat_udiv]
        simp
        omega
      rw [if_neg hne, fitted_of_lt fun hbig => by
        have := himage.guidRef hbig size hsize
        omega]
      generalize value / 16 + 1 = temp at hval
      have htemp : temp ≠ 0 := by
        rintro rfl
        exact absurd hval (by simp)
      have hmul : (temp * 16).toNat = value.toNat + 16 := by
        rw [BitVec.toNat_mul, hval]
        simp
        omega
      have hback : (temp - 1) * 16 = value := by
        apply BitVec.eq_of_toNat_eq
        rw [BitVec.toNat_mul, BitVec.toNat_sub, hval]
        simp
        omega
      rw [if_pos htemp, hsize]
      dsimp only
      rw [if_neg, hback]
      · rfl
      · rw [BitVec.le_def, BitVec.lt_def, BitVec.lt_def, hmul, hval]
        simp
        omega
  lost h := absurd trivial h

theorem written_uint16 {value : ILUInt32} (hvalue : value.toNat < 2 ^ 16) :
    Written image .uint16 [value] (write16 value) where
  encode _ := rfl
  length := rfl
  kept := by
    intro _ pre post
    have hfits : (value.setWidth 16).setWidth 32 = value :=
      fitted_of_lt (fun _ : false = false => hvalue)
    refine ⟨pre.length + 2, ?_⟩
    dsimp only [parseField]
    rw [ilReadUInt16_write16, hfits]
    rfl
  lost h := absurd trivial h

theorem written_uint32 (value : ILUInt32) : Written image .uint32 [value] (write32 value) where
  encode _ := rfl
  length := rfl
  kept := by
    intro _ pre post
    refine ⟨pre.length + 4, ?_⟩
    dsimp only [parseField]
    rw [ilReadUInt32_write32]
    rfl
  lost h := absurd trivial h

/-- The token that a column is about is that of a table with rows of its own. -/
theorem toNat_columnToken {token : ILToken} (h : (isTable token && token.toNat != 0) = true) :
    isTable token = true ∧ token.toNat % 2 ^ 24 = 0 ∧ 2 ^ 24 ≤ token.toNat := by
  rw [Bool.and_eq_true, bne_iff_ne] at h
  have htable := toNat_tableToken h.1
  exact ⟨h.1, htable.1, by omega⟩

theorem listBig_eq_false_iff (token : ILToken) :
    listBig image token = false ↔ (image.tokenCount (tokenTable token)).toNat ≤ 0xFFFE := by
  unfold listBig
  rw [decide_eq_false_iff_not, BitVec.lt_def, Nat.not_lt]
  rfl

theorem tkRefBig_eq_false_iff (token : ILToken) :
    tkRefBig image token = false ↔ (image.tokenCount (tokenTable token)).toNat ≤ 0xFFFF := by
  unfold tkRefBig
  rw [decide_eq_false_iff_not, BitVec.lt_def, Nat.not_lt]
  rfl

/-- How a list column is read, by the number that stands there. -/
theorem parseField_list {bytes : List ILUInt8} {posn : Nat} {token temp : ILUInt32}
    (hread : readWidth (listBig image token) bytes posn = .ok temp) :
    parseField image image.refSizes bytes posn (.list token) =
      if temp = image.tokenCount (tokenTable token) + 1 then
        .ok ([0], posn + if listBig image token then 4 else 2)
      else if 0 < temp ∧ temp ≤ image.tokenCount (tokenTable token) then
        .ok ([token ||| temp], posn + if listBig image token then 4 else 2)
      else .error .badMeta := by
  dsimp only [parseField]
  rw [hread]
  rfl

theorem written_list (himage : image.Valid) {token value : ILUInt32}
    (hfield : (Field.list token).wellFormed = true) (hvalid : ValidColumn image (.list token) [value]) :
    Written image (.list token) [value] (writeWidth (listBig image token)
      (if value = 0 then token ||| image.tokenCount (tokenTable token) else value)) := by
  obtain ⟨htable, hmod, hge⟩ := toNat_columnToken hfield
  have hcount := himage.tokenCount (tokenTable token)
  have hsucc : (image.tokenCount (tokenTable token) + 1).toNat =
      (image.tokenCount (tokenTable token)).toNat + 1 := by
    rw [BitVec.toNat_add]
    simp
    omega
  have hlimit := toNat_or_row htable (show (image.tokenCount (tokenTable token)).toNat < 2 ^ 24 by omega)
  have hlast := toNat_or_row htable
    (show (image.tokenCount (tokenTable token) + 1).toNat < 2 ^ 24 by omega)
  have hrow : value = 0 ∨ token.toNat < value.toNat ∧
      value.toNat ≤ token.toNat + ((image.tokenCount (tokenTable token)).toNat + 1) := by
    obtain h | h | h := hvalid
    · exact .inl h
    · exact .inr ⟨h.1, by have := h.2; omega⟩
    · refine .inr ?_
      rw [h, hlast, hsucc]
      omega
  refine ⟨fun _ => rfl, length_writeWidth _ _, ?_, ?_⟩
  · rintro ⟨hne, hbig⟩ pre post
    have hsmall := (listBig_eq_false_iff token).1 hbig
    have hnonzero : value ≠ 0 := fun h => hne (by rw [h])
    obtain ⟨hlt, hle⟩ := hrow.resolve_left hnonzero
    rw [if_neg hnonzero, parseField_list (readWidth_writeWidth _ _ _ _), hbig]
    have htemp : (fitted false value).toNat = value.toNat - token.toNat := by
      rw [toNat_fitted_false]
      omega
    generalize fitted false value = temp at htemp
    have hback : (token ||| temp).toNat = value.toNat := by
      rw [toNat_or_row htable (by omega)]
      omega
    by_cases hend : temp = image.tokenCount (tokenTable token) + 1
    · have hvalue : value = token ||| (image.tokenCount (tokenTable token) + 1) := by
        rw [← hend]
        exact (BitVec.eq_of_toNat_eq hback).symm
      have hcanon : canonicalColumn image (.list token) [value] = [0] := if_pos hvalue
      rw [if_pos hend, hcanon]
      exact ⟨_, rfl⟩
    · have hvalue : value ≠ token ||| (image.tokenCount (tokenTable token) + 1) := by
        intro h
        apply hend
        apply BitVec.eq_of_toNat_eq
        have := congrArg BitVec.toNat h
        omega
      have hcanon : canonicalColumn image (.list token) [value] = [value] := if_neg hvalue
      rw [if_neg hend, hcanon, if_pos, BitVec.eq_of_toNat_eq hback]
      · exact ⟨_, rfl⟩
      · have hne' := mt BitVec.eq_of_toNat_eq hend
        rw [BitVec.lt_def, BitVec.le_def, BitVec.ofNat_eq_ofNat, BitVec.toNat_zero]
        omega
  · intro hlost pre post posn
    rw [parseField_list (readWidth_writeWidth _ _ _ _)]
    -- a token with its table in front is too large for a row
    have htooLarge {temp : ILUInt32} (htemp : 2 ^ 24 ≤ temp.toNat) :
        (if temp = image.tokenCount (tokenTable token) + 1 then
          .ok ([0], pre.length + if listBig image token then 4 else 2)
        else if 0 < temp ∧ temp ≤ image.tokenCount (tokenTable token) then
          .ok ([token ||| temp], pre.length + if listBig image token then 4 else 2)
        else .error .badMeta : Except MetaStop (List ILUInt32 × Nat)) = .error .badMeta := by
      rw [if_neg, if_neg]
      · rw [BitVec.le_def]
        omega
      · intro h
        have := congrArg BitVec.toNat h
        omega
    cases hbig : listBig image token with
    | true =>
      rw [hbig] at htooLarge
      rw [htooLarge]
      · intro h
        cases h
      · unfold fitted
        rw [if_pos rfl]
        split
        · omega
        · have := hrow.resolve_left (by assumption)
          omega
    | false =>
      have hsmall := (listBig_eq_false_iff token).1 hbig
      have hzero : value = 0 := by
        apply Classical.byContradiction
        intro hne
        exact hlost ⟨fun h => hne (List.singleton_injective h), hbig⟩
      have hcanon : canonicalColumn image (.list token) [value] = [0] := by
        dsimp only [canonicalColumn]
        split
        · rfl
        · rw [hzero]
      have htemp : (fitted false (token ||| image.tokenCount (tokenTable token))).toNat =
          (image.tokenCount (tokenTable token)).toNat := by
        rw [toNat_fitted_false]
        omega
      rw [if_pos hzero, hcanon]
      generalize fitted false (token ||| image.tokenCount (tokenTable token)) = temp at htemp
      rw [if_neg]
      · split
        · intro h
          have hback := toNat_or_row htable (show temp.toNat < 2 ^ 24 by omega)
          have hzero : token ||| temp = 0 := by
            injection h with h
            exact List.singleton_injective (Prod.mk.inj h).1
          rw [hzero, BitVec.ofNat_eq_ofNat, BitVec.toNat_zero] at hback
          omega
        · intro h
          cases h
      · intro h
        have := congrArg BitVec.toNat h
        omega

theorem written_tkRef (himage : image.Valid) {token value : ILUInt32}
    (hfield : (Field.tkRef token).wellFormed = true)
    (hvalid : ValidColumn image (.tkRef token) [value]) :
    Written image (.tkRef token) [value] (writeWidth (tkRefBig image token) value) := by
  obtain ⟨htable, hmod, hge⟩ := toNat_columnToken hfield
  have hcount := himage.tokenCount (tokenTable token)
  obtain ⟨hlt, hle⟩ := hvalid
  refine ⟨fun _ => rfl, length_writeWidth _ _, ?_, ?_⟩
  · intro hbig pre post
    have hbig : tkRefBig image token = false := hbig
    have hsmall := (tkRefBig_eq_false_iff token).1 hbig
    refine ⟨pre.length + if tkRefBig image token then 4 else 2, ?_⟩
    dsimp only [parseField]
    rw [readWidth_writeWidth, hbig]
    dsimp only [bind, Except.bind]
    have htemp : (fitted false value).toNat = value.toNat - token.toNat := by
      rw [toNat_fitted_false]
      omega
    generalize fitted false value = temp at htemp
    have hback : (token ||| temp).toNat = value.toNat := by
      rw [toNat_or_row htable (by omega)]
      omega
    rw [if_pos, BitVec.eq_of_toNat_eq hback]
    · rfl
    · rw [BitVec.lt_def, BitVec.le_def, BitVec.ofNat_eq_ofNat, BitVec.toNat_zero]
      omega
  · intro hlost pre post posn
    have hbig : tkRefBig image token = true := Bool.eq_true_of_not_eq_false hlost
    dsimp only [parseField]
    rw [readWidth_writeWidth, hbig]
    dsimp only [bind, Except.bind, fitted]
    rw [if_pos rfl, if_neg]
    · intro h
      cases h
    · rw [BitVec.le_def]
      omega

/-- A valid value of a mixed column as a row of the alternative that is written with it: the row
is zero where the value has none. -/
theorem mixedTag_valid (himage : image.Valid) {bits : Nat} {tokens : List ILToken} {value : ILToken}
    (hfield : (Field.mixed bits tokens).wellFormed = true)
    (hvalid : ValidColumn image (.mixed bits tokens) [value]) :
    ∃ i token, i < 2 ^ bits ∧ tokens[i]? = some token ∧ (mixedTag value tokens 0 0).toNat = i ∧
      (value = 0 ∧ isTable token = true ∨ value = tokenString ∧ token = 2 ∨
        token ∈ tokens ∧ isTable token = true ∧ IsRow image token value) := by
  obtain ⟨hbits, hlength, hhead, halts⟩ := mixed_wellFormed hfield
  have hpow : 2 ^ bits ≤ 2 ^ 5 := Nat.pow_le_pow_right (by decide) hbits
  have hmask := toNat_and_tokenMask value
  have hmatched : (∀ token ∈ tokens, ¬ Matches value token) → value = 0 := by
    intro hnone
    obtain h | ⟨h, htwo⟩ | ⟨token, htoken, htable, hlt, hle⟩ := hvalid
    · exact h
    · exact absurd (.inr ⟨rfl, by rw [h]; rfl⟩) (hnone 2 htwo)
    · refine absurd (.inl (BitVec.eq_of_toNat_eq ?_)) (hnone token htoken)
      have := (toNat_tableToken htable).1
      have := himage.tokenCount (tokenTable token)
      omega
  obtain ⟨htag, hnone⟩ | ⟨i, token, hi, hmatch, htag⟩ := mixedTag_cases value tokens 0 0
  · obtain ⟨first, rest, hcons⟩ : ∃ first rest, tokens = first :: rest := by
      cases tokens with
      | nil => cases hhead
      | cons first rest => exact ⟨first, rest, rfl⟩
    subst hcons
    refine ⟨0, first, Nat.two_pow_pos bits, rfl, by rw [htag]; rfl, .inl ⟨hmatched hnone, hhead⟩⟩
  · have hlt : i < 2 ^ bits := by
      rw [← hlength]
      exact (List.getElem?_eq_some_iff.1 hi).1
    have hmem := List.mem_of_getElem? hi
    refine ⟨i, token, hlt, hi, ?_, ?_⟩
    · rw [htag]
      simp
      omega
    · obtain h | ⟨h, htwo⟩ | ⟨other, hother, htable, hlow, hhigh⟩ := hvalid
      · -- the alternative is the table with number zero
        refine .inl ⟨h, ?_⟩
        obtain heq | ⟨-, heq⟩ := hmatch
        · rw [heq, h]
          rfl
        · rw [h] at heq
          exact absurd heq (by decide)
      · refine .inr (.inl ⟨h, ?_⟩)
        obtain heq | ⟨heq, -⟩ := hmatch
        · have hnone := halts token hmem
          rw [heq, h] at hnone
          exact absurd hnone (by decide)
        · exact heq
      · have hcount := himage.tokenCount (tokenTable other)
        obtain ⟨hmod, hbelow⟩ := toNat_tableToken htable
        have hsame : value &&& tokenMask = other := by
          apply BitVec.eq_of_toNat_eq
          omega
        obtain heq | ⟨-, heq⟩ := hmatch
        · rw [hsame] at heq
          rw [heq]
          exact .inr (.inr ⟨hother, htable, hlow, hhigh⟩)
        · rw [hsame] at heq
          rw [heq] at htable
          exact absurd htable (by decide)

/-- Where no table is large, the rows leave room for the number of the alternative. -/
theorem mixedBig_eq_false {bits : Nat} {tokens : List ILToken} (hbits : bits ≤ 5)
    (hbig : mixedBig image bits tokens = false) {token : ILToken} (htoken : token ∈ tokens)
    (htable : isTable token = true) {n i : Nat} (hi : i < 2 ^ bits)
    (hn : n ≤ (image.tokenCount (tokenTable token)).toNat) : n * 2 ^ bits + i < 2 ^ 16 := by
  unfold mixedBig at hbig
  have hsmall := List.any_eq_false.1 hbig token htoken
  have htable := (toNat_tableToken htable).1
  have hone : token ≠ 1 := by
    rintro rfl
    exact absurd htable (by decide)
  have htwo : token ≠ 2 := by
    rintro rfl
    exact absurd htable (by decide)
  rw [decide_eq_true_iff] at hsmall
  have hle : (image.tokenCount (tokenTable token)).toNat ≤ 65535 / 2 ^ bits := by
    have := BitVec.not_lt.1 fun h => hsmall ⟨hone, htwo, h⟩
    rw [BitVec.le_def, BitVec.toNat_ushiftRight, Nat.shiftRight_eq_div_pow] at this
    exact this
  obtain rfl | rfl | rfl | rfl | rfl | rfl :
    bits = 0 ∨ bits = 1 ∨ bits = 2 ∨ bits = 3 ∨ bits = 4 ∨ bits = 5 := by omega
  all_goals omega

theorem written_mixed (himage : image.Valid) {bits : Nat} {tokens : List ILToken} {value : ILToken}
    (hfield : (Field.mixed bits tokens).wellFormed = true)
    (hvalid : ValidColumn image (.mixed bits tokens) [value]) :
    Written image (.mixed bits tokens) [value] (writeWidth (mixedBig image bits tokens)
      (mixedTag value tokens 0 0 ||| ((value &&& ~~~tokenMask) <<< bits))) where
  encode _ := rfl
  length := length_writeWidth _ _
  kept := by
    intro _ pre post
    obtain ⟨hbits, -, -, -⟩ := mixed_wellFormed hfield
    obtain ⟨i, token, hi, htoken, htag, hcase⟩ := mixedTag_valid himage hfield hvalid
    have hlow := toNat_and_not_tokenMask value
    obtain ⟨hjoin, hrow, hnumber⟩ := mixed_join hbits hi htag hlow (Nat.mod_lt _ (by decide))
    generalize hwritten : mixedTag value tokens 0 0 ||| ((value &&& ~~~tokenMask) <<< bits) = written
      at hjoin hrow hnumber
    have hfits : fitted (mixedBig image bits tokens) written = written := by
      apply fitted_of_lt
      intro hbig
      have hpow : 2 ^ bits ≤ 2 ^ 5 := Nat.pow_le_pow_right (by decide) hbits
      rw [hjoin]
      obtain ⟨h, -⟩ | ⟨h, -⟩ | ⟨hmem, htable, hlt, hle⟩ := hcase
      · rw [h]
        simp
        omega
      · rw [h]
        simp [tokenString]
        omega
      · apply mixedBig_eq_false hbits hbig hmem htable hi
        have := himage.tokenCount (tokenTable token)
        have := (toNat_tableToken htable).1
        omega
    refine ⟨pre.length + if mixedBig image bits tokens then 4 else 2, ?_⟩
    dsimp only [parseField]
    rw [readWidth_writeWidth, hfits]
    dsimp only [bind, Except.bind]
    rw [hnumber, htoken]
    dsimp only
    have hreal (htable : isTable token = true) : token ≠ 1 ∧ token ≠ 2 := by
      constructor
      all_goals
        rintro rfl
        exact absurd htable (by decide)
    obtain ⟨rfl, htable⟩ | ⟨rfl, rfl⟩ | ⟨hmem, htable, hlt, hle⟩ := hcase
    · have hzero : written >>> bits = 0 := BitVec.eq_of_toNat_eq hrow
      rw [if_pos (hreal htable), if_pos hzero]
      rfl
    · rfl
    · have hcount := himage.tokenCount (tokenTable token)
      have hmod := (toNat_tableToken htable).1
      have hback : (written >>> bits ||| token).toNat = value.toNat := by
        rw [toNat_or_tag _ token 24 (by omega) hmod]
        omega
      rw [if_pos (hreal htable), if_neg, if_pos, BitVec.eq_of_toNat_eq hback]
      · rfl
      · rw [BitVec.le_def]
        omega
      · intro h
        have := congrArg BitVec.toNat h
        rw [BitVec.ofNat_eq_ofNat, BitVec.toNat_zero] at this
        omega
  lost h := absurd trivial h

/-! ### Rows -/

theorem written_of_valid (himage : image.Valid) {field : Field} (hfield : field.wellFormed = true)
    {values : List ILUInt32} (hvalid : ValidColumn image field values) :
    values.length = field.columns ∧ ∃ bytes, Written image field values bytes := by
  match field, values, hvalid with
  | .strRef, [_], hvalid => exact ⟨rfl, _, written_strRef himage hvalid⟩
  | .blobRef, [_, _, _], hvalid => exact ⟨rfl, _, written_blobRef himage hvalid⟩
  | .guidRef, [_], hvalid => exact ⟨rfl, _, written_guidRef himage hvalid⟩
  | .uint16, [_], hvalid => exact ⟨rfl, _, written_uint16 hvalid⟩
  | .uint32, [value], _ => exact ⟨rfl, _, written_uint32 value⟩
  | .list _, [_], hvalid => exact ⟨rfl, _, written_list himage hfield hvalid⟩
  | .tkRef _, [_], hvalid => exact ⟨rfl, _, written_tkRef himage hfield hvalid⟩
  | .mixed _ _, [_], hvalid => exact ⟨rfl, _, written_mixed himage hfield hvalid⟩

theorem length_canonicalColumn (field : Field) (values : List ILUInt32) :
    (canonicalColumn image field values).length = values.length := by
  unfold canonicalColumn
  split
  · split <;> rfl
  · rfl

/-- However a column is read, it has its number of values. -/
theorem parseField_columns {sizes : RefSizes} (bytes : List ILUInt8) (posn : Nat) (field : Field) :
    Ends (fun r => r.1.length = field.columns) (fun _ => True)
      (parseField image sizes bytes posn field) := by
  have hany {α : Type} (r : Except MetaStop α) : Ends (fun _ => True) (fun _ => True) r := by
    cases r <;> trivial
  cases field with
  | strRef =>
    exact (hany _).bind fun temp _ => .ite (fun _ => trivial) fun _ => rfl
  | blobRef =>
    apply (hany _).bind
    intro temp _
    apply Ends.ite
    · intro _
      trivial
    · intro _
      apply Ends.ite
      · intro _
        exact .ite (fun _ => trivial) fun _ => rfl
      · intro _
        rfl
  | guidRef =>
    apply (hany _).bind
    intro temp _
    apply Ends.ite
    · intro _
      cases image.guidSize with
      | none => trivial
      | some size => exact .ite (fun _ => trivial) fun _ => rfl
    · intro _
      rfl
  | uint16 => exact (hany _).bind fun temp _ => rfl
  | uint32 => exact (hany _).bind fun temp _ => rfl
  | list token =>
    exact (hany _).bind fun temp _ => .ite (fun _ => rfl) fun _ => .ite (fun _ => rfl) fun _ => trivial
  | optGen => rfl
  | tkRef token => exact (hany _).bind fun temp _ => .ite (fun _ => rfl) fun _ => trivial
  | mixed bits tokens =>
    apply (hany _).bind
    intro temp _
    dsimp only
    split
    · trivial
    · exact .ite (fun _ => .ite (fun _ => rfl) fun _ => .ite (fun _ => rfl) fun _ => trivial)
        fun _ => .ite (fun _ => trivial) fun _ => rfl

theorem encodeFields_cons {field : Field} (hfield : field.wellFormed = true) (fields : List Field)
    (values : List ILUInt32) :
    encodeFields image (field :: fields) values =
      (encodeField image field values).bind fun (bytes, values) =>
        (encodeFields image fields values).map (bytes ++ ·) := by
  cases field with
  | optGen => exact absurd hfield Bool.false_ne_true
  | _ => rfl

/-- A row is read back as it was written exactly if each of its columns is. -/
theorem parseFields_encodeFields (himage : image.Valid) {fields : List Field}
    (hfields : ∀ field ∈ fields, field.wellFormed = true) {values : List ILUInt32}
    (hvalid : ValidRow image fields values) :
    ∃ bytes, encodeFields image fields values = some bytes ∧
      bytes.length = tokenSize image image.refSizes fields ∧
      (KeptRow image fields values → ∀ pre post, parseFields image image.refSizes
        (pre ++ bytes ++ post) fields pre.length =
          .ok (canonicalRow image fields values, pre.length + bytes.length)) ∧
      (¬ KeptRow image fields values → ∀ pre post posn, parseFields image image.refSizes
        (pre ++ bytes ++ post) fields pre.length ≠ .ok (canonicalRow image fields values, posn)) := by
  induction fields generalizing values with
  | nil =>
    have hvalues : values = [] := hvalid
    subst hvalues
    refine ⟨[], rfl, rfl, fun _ _ _ => rfl, fun h => absurd trivial h⟩
  | cons field fields ih =>
    obtain ⟨hfield, hfields⟩ := List.forall_mem_cons.1 hfields
    obtain ⟨hcolumn, hrow⟩ := hvalid
    obtain ⟨hcolumns, bytes, hwritten⟩ := written_of_valid himage hfield hcolumn
    obtain ⟨rest, hencode, hlength, hkept, hlost⟩ := ih hfields hrow
    have hread (pre post : List ILUInt8) {value : List ILUInt32} {posn : Nat}
        (h : parseField image image.refSizes (pre ++ (bytes ++ rest) ++ post) pre.length field =
          .ok (value, posn)) :
        parseFields image image.refSizes (pre ++ (bytes ++ rest) ++ post) (field :: fields)
            pre.length = (parseFields image image.refSizes ((pre ++ bytes) ++ rest ++ post) fields
              (pre ++ bytes).length).map fun r => (value ++ r.1, r.2) := by
      have hroom : pre.length + fieldSize image image.refSizes field ≤
          (pre ++ (bytes ++ rest) ++ post).length := by
        rw [List.length_append, List.length_append, List.length_append, hwritten.length]
        omega
      have hposn : posn = (pre ++ bytes).length := by
        rw [List.length_append, hwritten.length]
        obtain ⟨values, hvalues⟩ | hbad := parseField_readTo image.refSizes_valid hfield hroom
        · rw [h] at hvalues
          injection hvalues with hvalues
          exact (Prod.mk.inj hvalues).2
        · rw [h] at hbad
          cases hbad
      rw [parseFields_cons hfield, h, hposn]
      dsimp only [bind, Except.bind]
      rw [List.append_assoc pre bytes rest]
      cases parseFields image image.refSizes (pre ++ (bytes ++ rest) ++ post) fields
        (pre ++ bytes).length <;> rfl
    have happend (pre post : List ILUInt8) :
        pre ++ (bytes ++ rest) ++ post = pre ++ bytes ++ (rest ++ post) := by
      simp only [List.append_assoc]
    refine ⟨bytes ++ rest, ?_, ?_, ?_, ?_⟩
    · rw [encodeFields_cons hfield, ← List.take_append_drop field.columns values, hwritten.encode]
      dsimp only [Option.bind_some]
      rw [hencode]
      rfl
    · rw [List.length_append, tokenSize_cons hfield, hwritten.length, hlength]
    · rintro ⟨hkeptColumn, hkeptRow⟩ pre post
      obtain ⟨posn, hposn⟩ := hwritten.kept hkeptColumn pre (rest ++ post)
      rw [← happend] at hposn
      rw [hread pre post hposn, hkept hkeptRow]
      rw [List.length_append, List.length_append, Nat.add_assoc]
      rfl
    · intro hnot pre post posn hparse
      have hlengths : (canonicalColumn image field (values.take field.columns)).length =
          field.columns := by
        rw [length_canonicalColumn, hcolumns]
      cases hcase : parseField image image.refSizes (pre ++ (bytes ++ rest) ++ post) pre.length
          field with
      | error e =>
        rw [parseFields_cons hfield, hcase] at hparse
        cases hparse
      | ok r =>
        obtain ⟨value, posn'⟩ := r
        have hvalue := (parseField_columns _ _ field).of_ok hcase
        rw [hread pre post hcase] at hparse
        cases hcase' : parseFields image image.refSizes ((pre ++ bytes) ++ rest ++ post) fields
            (pre ++ bytes).length with
        | error e =>
          rw [hcase'] at hparse
          cases hparse
        | ok r' =>
          rw [hcase'] at hparse
          injection hparse with hparse
          have hsplit := List.append_inj (Prod.mk.inj hparse).1 (hvalue.trans hlengths.symm)
          apply hnot
          constructor
          · apply Classical.byContradiction
            intro hlostColumn
            rw [happend, hsplit.1] at hcase
            exact hwritten.lost hlostColumn pre (rest ++ post) _ hcase
          · apply Classical.byContradiction
            intro hlostRow
            rw [show r' = (canonicalRow image fields (values.drop field.columns), r'.2) from
              Prod.ext hsplit.2 rfl] at hcase'
            exact hlost hlostRow (pre ++ bytes) post _ hcase'

/-- Exactly the rows whose columns are kept come back as they were. -/
theorem rowRoundTrips_iff (himage : image.Valid) {token : ILToken} {fields : List Field}
    (hfields : fieldDescriptions (tokenTable token) = some fields) {values : List ILUInt32}
    (hvalid : ValidRow image fields values) :
    RowRoundTrips image token values ↔ KeptRow image fields values := by
  obtain ⟨bytes, hencode, hlength, hkept, hlost⟩ := parseFields_encodeFields himage
    (Field.wellFormed_of_described (described_fieldDescriptions hfields)) hvalid
  have hwrite : ilImageRawTokenEncode image token values = some bytes := by
    unfold ilImageRawTokenEncode
    rw [hfields]
    exact hencode
  constructor
  · rintro ⟨fields', bytes', hfields', hwrite', -, hread⟩
    rw [hfields] at hfields'
    cases hfields'
    rw [hwrite] at hwrite'
    cases hwrite'
    apply Classical.byContradiction
    intro hnot
    exact hlost hnot [] [] _ (hread [] [])
  · intro hrow
    refine ⟨fields, bytes, hfields, hwrite, hlength, ?_⟩
    intro pre post
    rw [← hlength]
    exact hkept hrow pre post

/-- An image of one method with one parameter, and as many classes as it takes. -/
def sampleImage (numTypes : ILUInt32) : ILImage where
  stringPoolSize := 1
  blobPool := [0]
  guidSize := none
  tokenCount type := if type = 0x02 then numTypes else if type = 0x08 then 1 else 0

theorem sampleImage_valid {numTypes : ILUInt32} (h : numTypes.toNat < 0x00FFFFFF) :
    (sampleImage numTypes).Valid where
  tokenCount type := by
    unfold sampleImage
    dsimp only
    split
    · exact h
    · split <;> decide
  strRef _ := show (1 : ILUInt32).toNat ≤ 2 ^ 16 by decide
  blobRef _ := show [(0 : ILUInt8)].length ≤ 2 ^ 16 by decide
  blobPool := show [(0 : ILUInt8)].length < 2 ^ 32 by decide
  guidRef _ size hsize := nomatch hsize

theorem sampleImage_method {numTypes param : ILUInt32}
    (hparam : ValidColumn (sampleImage numTypes) paramField [param]) :
    ValidRow (sampleImage numTypes) [.uint32, .uint16, .uint16, .strRef, .blobRef, paramField]
      [0x2050, 0, 0x96, 0, 0, 0, 0, param] :=
  ⟨trivial, (by decide : (0 : ILUInt32).toNat < 2 ^ 16), (by decide : (0x96 : ILUInt32).toNat < 2 ^ 16),
    (by decide : (0 : ILUInt32) < 1), .inl ⟨rfl, rfl, rfl⟩, hparam, rfl⟩

theorem rowRoundTrips_iff_method :
    RowRoundTrips (sampleImage 1) 0x06000001 [0x2050, 0, 0x96, 0, 0, 0, 0, 0x08000001] ↔
      KeptRow (sampleImage 1) [.uint32, .uint16, .uint16, .strRef, .blobRef, paramField]
        [0x2050, 0, 0x96, 0, 0, 0, 0, 0x08000001] := by
  have hparam : IsRow (sampleImage 1) tokenParamDef 0x08000001 := by
    constructor <;> decide
  exact rowRoundTrips_iff (sampleImage_valid (by decide)) rfl (sampleImage_method (.inr (.inl hparam)))

/-- A method without parameters comes back with the last one of the image, and a class nested in
another does not come back from a table of 65536. -/
theorem not_rowRoundTrips :
    (sampleImage 0x10000).Valid ∧
    ValidRow (sampleImage 0x10000) [.uint32, .uint16, .uint16, .strRef, .blobRef, paramField]
      [0x2050, 0, 0x96, 0, 0, 0, 0, 0] ∧
    ¬ RowRoundTrips (sampleImage 0x10000) 0x06000001 [0x2050, 0, 0x96, 0, 0, 0, 0, 0] ∧
    ValidRow (sampleImage 0x10000) [.tkRef tokenTypeDef, .tkRef tokenTypeDef]
      [0x02000002, 0x02000001] ∧
    ¬ RowRoundTrips (sampleImage 0x10000) 0x29000001 [0x02000002, 0x02000001] := by
  refine ⟨sampleImage_valid (by decide), sampleImage_method (.inl rfl), ?_, ?_, ?_⟩
  · rintro ⟨fields, bytes, hfields, hwrite, -, hread⟩
    cases hfields
    cases hwrite
    have h := hread [] []
    cases h
  · refine ⟨⟨?_, ?_⟩, ⟨?_, ?_⟩, rfl⟩
    all_goals decide
  · rintro ⟨fields, bytes, hfields, hwrite, -, hread⟩
    cases hfields
    cases hwrite
    have h := hread [] []
    cases h

end Pnet.Image
