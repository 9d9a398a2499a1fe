import Pnet.Image.MetaIndexSound
import Pnet.Lib.Ends

/-! An index that parses: its tables lie one behind the other inside the blob, and every row is
read to its end. Whatever the blob, nothing is read outside it. -/
namespace Pnet.Image
open Pnet.Lib

/-- The errors that the loader reports. -/
def IsLoadError (e : MetaStop) : Prop := e = .badMeta ∨ e = .undocMeta

theorem isLoadError_badMeta : IsLoadError .badMeta := .inl rfl

theorem isLoadError_undocMeta : IsLoadError .undocMeta := .inr rfl

variable {image : ILImage} {sizes : RefSizes} {blob : List ILUInt8} {typesPresent : ILUInt64}

/-! ### Counts -/

theorem ends_ilReadUInt32 {posn : Nat} (hroom : posn + 4 ≤ blob.length) :
    Ends (fun _ => True) IsLoadError (ilReadUInt32 blob posn) := by
  obtain ⟨value, hvalue⟩ := ilReadUInt32_of_le hroom
  rw [hvalue]
  trivial

/-- The cursor stays within the blob, and counts are set for the types present only. -/
theorem parseCounts_ends (types : List Nat) {cursor : MetaCursor}
    (hcursor : cursor.index + cursor.size = blob.length) :
    Ends (fun r => r.2.index + r.2.size = blob.length ∧ cursor.index ≤ r.2.index ∧
        ∀ type, type ∉ types ∨ typesPresent.getLsbD type = false →
          r.1.tokenCount type = image.tokenCount type)
      IsLoadError (parseCounts blob typesPresent types image cursor) := by
  induction types generalizing image cursor with
  | nil => exact ⟨hcursor, le_rfl, fun _ _ => rfl⟩
  | cons type types ih =>
    unfold parseCounts
    apply Ends.ite
    · intro hpresent
      apply Ends.ite
      · intro _
        exact isLoadError_badMeta
      · intro hsize
        apply (ends_ilReadUInt32 (show cursor.index + 4 ≤ blob.length by omega)).bind
        intro count _
        apply Ends.ite
        · intro _
          exact isLoadError_badMeta
        · intro _
          apply (ih (show cursor.index + 4 + (cursor.size - 4) = blob.length by omega)).mono _
            (fun _ he => he)
          rintro r ⟨hr, hle, hcount⟩
          refine ⟨hr, (Nat.le_add_right _ _).trans hle, ?_⟩
          intro other hother
          have hne : other ≠ type := by
            rintro rfl
            obtain hother | hother := hother
            · exact hother List.mem_cons_self
            · rw [hother] at hpresent
              cases hpresent
          rw [hcount other (hother.imp_left fun h hmem => h (.tail _ hmem))]
          exact Function.update_of_ne hne _ _
    · intro _
      apply (ih hcursor).mono _ (fun _ he => he)
      rintro r ⟨hr, hle, hcount⟩
      exact ⟨hr, hle, fun other hother =>
        hcount other (hother.imp_left fun h hmem => h (.tail _ hmem))⟩

/-! ### Sizes -/

theorem getLsbD_clear (x : ILUInt64) (type other : Nat) :
    (x &&& ~~~((1 : ILUInt64) <<< type)).getLsbD other =
      (x.getLsbD other && decide (other ≠ type)) := by
  by_cases hother : other < 64
  · rw [BitVec.getLsbD_and, BitVec.getLsbD_not, BitVec.getLsbD_shiftLeft]
    by_cases hlt : other < type
    · simp [hother, hlt, hlt.ne]
    · by_cases heq : other = type
      · simp [heq, heq ▸ hother]
      · simp [hother, heq]
        omega
  · rw [BitVec.getLsbD_of_ge _ _ (Nat.not_lt.1 hother), BitVec.getLsbD_of_ge _ _ (Nat.not_lt.1 hother),
      Bool.false_and]

theorem clearTypes_of_notMem {types : List Nat} {type : Nat} (htype : type ∉ types)
    (state : ILImage × ILUInt64) :
    (clearTypes types state).1.tokenCount type = state.1.tokenCount type ∧
      (clearTypes types state).1.tokenSize type = state.1.tokenSize type ∧
      (clearTypes types state).2.getLsbD type = state.2.getLsbD type := by
  induction types generalizing state with
  | nil => exact ⟨rfl, rfl, rfl⟩
  | cons head types ih =>
    have hne : type ≠ head := fun h => htype (h ▸ List.mem_cons_self)
    obtain ⟨hcount, hsize, hpresent⟩ := ih (fun h => htype (.tail _ h)) _
    unfold clearTypes
    rw [hcount, hsize, hpresent]
    refine ⟨Function.update_of_ne hne _ _, Function.update_of_ne hne _ _, ?_⟩
    rw [getLsbD_clear, decide_eq_true hne, Bool.and_true]

theorem clearTypes_of_mem {types : List Nat} {type : Nat} (htype : type ∈ types)
    (state : ILImage × ILUInt64) :
    (clearTypes types state).1.tokenCount type = 0 ∧
      (clearTypes types state).2.getLsbD type = false := by
  induction types generalizing state with
  | nil => cases htype
  | cons head types ih =>
    by_cases hmem : type ∈ types
    · exact ih hmem _
    · have heq : type = head := (List.mem_cons.1 htype).resolve_right hmem
      obtain ⟨hcount, -, hpresent⟩ := clearTypes_of_notMem hmem _
      unfold clearTypes
      rw [hcount, hpresent, heq]
      refine ⟨Function.update_self _ _ _, ?_⟩
      rw [getLsbD_clear]
      simp

/-- What the sizing of the tables leaves of one that it comes to. -/
structure Sized (sizes : RefSizes) (image : ILImage) (typesPresent : ILUInt64) (type : Nat)
    (r : ILImage × ILUInt64) : Prop where
  count : r.1.tokenCount type = image.tokenCount type ∨ 0x2D ≤ type ∧ r.1.tokenCount type = 0
  described : ∀ fields, fieldDescriptions type = some fields →
    r.2.getLsbD type = typesPresent.getLsbD type ∧
      (typesPresent.getLsbD type = true → (r.1.tokenSize type).toNat = tokenSize image sizes fields)
  undescribed : fieldDescriptions type = none →
    r.2.getLsbD type = false ∧ (typesPresent.getLsbD type = true → r.1.tokenCount type = 0)

theorem Sized.of_congr {image' : ILImage} {type : Nat} {r : ILImage × ILUInt64}
    (h : Sized sizes image' typesPresent type r)
    (hcount : ∀ other, image'.tokenCount other = image.tokenCount other) :
    Sized sizes image typesPresent type r := by
  refine ⟨h.count.imp_left fun h => h.trans (hcount type), ?_, h.undescribed⟩
  intro fields hfields
  obtain ⟨hpresent, hsize⟩ := h.described fields hfields
  have hdescribed := Field.wellFormed_of_described (described_fieldDescriptions hfields)
  refine ⟨hpresent, fun hset => (hsize hset).trans ?_⟩
  exact tokenSize_congr hdescribed fun other _ => hcount other

/-- And of the others. -/
def Kept (image : ILImage) (typesPresent : ILUInt64) (type : Nat) (r : ILImage × ILUInt64) : Prop :=
  r.1.tokenCount type = image.tokenCount type ∧ r.1.tokenSize type = image.tokenSize type ∧
    r.2.getLsbD type = typesPresent.getLsbD type

theorem sized_of_clearTypes {types : List Nat} {type : Nat} (htype : type ∈ types)
    (hge : 0x2D ≤ type) (image : ILImage) (typesPresent : ILUInt64) (state : ILImage × ILUInt64) :
    Sized sizes image typesPresent type (clearTypes types state) := by
  have hclear := clearTypes_of_mem htype state
  refine ⟨.inr ⟨hge, hclear.1⟩, ?_, fun _ => ⟨hclear.2, fun _ => hclear.1⟩⟩
  intro fields hfields
  rw [fieldDescriptions_of_ge hge] at hfields
  cases hfields

theorem fieldDescriptions_isSome {type : Nat} (hgt : tokenTable tokenNestedClass < type)
    (hlt : type < 0x2D) : (fieldDescriptions type).isSome = true := by
  have hgt : 0x29 < type := hgt
  obtain rfl | rfl | rfl : type = 0x2A ∨ type = 0x2B ∨ type = 0x2C := by omega
  all_goals rfl

theorem toNat_sizeByte (hsizes : sizes.Valid) {type : Nat} {fields : List Field}
    (hfields : fieldDescriptions type = some fields) :
    (sizeByte sizes image type).toNat = tokenSize image sizes fields := by
  have hbounds := tokenSize_described image hsizes (described_fieldDescriptions hfields)
  unfold sizeByte
  rw [hfields, BitVec.toNat_ofNat]
  exact Nat.mod_eq_of_lt hbounds.2

theorem sizeByte_eq_zero_iff (hsizes : sizes.Valid) (type : Nat) :
    sizeByte sizes image type = 0 ↔ fieldDescriptions type = none := by
  cases hfields : fieldDescriptions type with
  | none =>
    unfold sizeByte
    rw [hfields]
    simp
  | some fields =>
    have hbounds := tokenSize_described image hsizes (described_fieldDescriptions hfields)
    rw [← BitVec.toNat_inj, toNat_sizeByte hsizes hfields]
    simp
    omega

theorem sizeTypes_ends (hsizes : sizes.Valid) {types : List Nat} (hsorted : types.Pairwise (· < ·)) :
    Ends (fun r => (∀ type ∈ types, Sized sizes image typesPresent type r) ∧
        ∀ type ∉ types, Kept image typesPresent type r)
      IsLoadError (sizeTypes sizes types (image, typesPresent)) := by
  induction types generalizing image with
  | nil =>
    refine ⟨?_, fun _ _ => ⟨rfl, rfl, rfl⟩⟩
    intro type htype
    cases htype
  | cons type types ih =>
    obtain ⟨hhead, hsorted⟩ := List.pairwise_cons.1 hsorted
    have hnotMem : type ∉ types := fun h => Nat.lt_irrefl _ (hhead type h)
    unfold sizeTypes
    apply Ends.ite
    · intro hpresent
      dsimp only
      apply Ends.ite
      · intro hzero
        have hnone := (sizeByte_eq_zero_iff hsizes type).1 hzero
        apply Ends.ite
        · intro _
          exact isLoadError_undocMeta
        · intro hgt
          have hge : 0x2D ≤ type := by
            apply Nat.le_of_not_lt
            intro hlt
            obtain ⟨fields, hfields⟩ := Option.isSome_iff_exists.1
              (fieldDescriptions_isSome (Nat.not_le.1 hgt) hlt)
            rw [hnone] at hfields
            cases hfields
          refine ⟨fun other hother => sized_of_clearTypes hother ?_ image typesPresent _, ?_⟩
          · obtain rfl | hother := List.mem_cons.1 hother
            · exact hge
            · exact hge.trans (hhead other hother).le
          · intro other hother
            obtain ⟨hcount, hsize, hpresent⟩ := clearTypes_of_notMem hother _
            refine ⟨hcount, hsize.trans (Function.update_of_ne ?_ _ _), hpresent⟩
            rintro rfl
            exact hother List.mem_cons_self
      · intro hsome
        apply (ih hsorted).mono _ (fun _ he => he)
        rintro r ⟨hsized, hkept⟩
        refine ⟨?_, ?_⟩
        · intro other hother
          obtain rfl | hother := List.mem_cons.1 hother
          · obtain ⟨hcount, hsize, hpresent'⟩ := hkept other hnotMem
            refine ⟨.inl hcount, ?_, ?_⟩
            · intro fields hfields
              refine ⟨hpresent', fun _ => ?_⟩
              rw [hsize]
              dsimp only
              rw [Function.update_self]
              exact toNat_sizeByte hsizes hfields
            · intro hnone
              exact absurd ((sizeByte_eq_zero_iff hsizes other).2 hnone) hsome
          · exact (hsized other hother).of_congr fun _ => rfl
        · intro other hother
          obtain ⟨hcount, hsize, hpresent'⟩ := hkept other fun h => hother (.tail _ h)
          refine ⟨hcount, hsize.trans (Function.update_of_ne ?_ _ _), hpresent'⟩
          rintro rfl
          exact hother List.mem_cons_self
    · intro habsent
      apply (ih hsorted).mono _ (fun _ he => he)
      rintro r ⟨hsized, hkept⟩
      refine ⟨?_, fun other hother => hkept other fun h => hother (.tail _ h)⟩
      intro other hother
      obtain rfl | hother := List.mem_cons.1 hother
      · obtain ⟨hcount, -, hpresent⟩ := hkept other hnotMem
        refine ⟨.inl hcount, ?_, ?_⟩
        · intro fields hfields
          exact ⟨hpresent, fun h => absurd h habsent⟩
        · intro _
          exact ⟨hpresent.trans (Bool.eq_false_iff.2 habsent), fun h => absurd h habsent⟩
      · exact hsized other hother

/-! ### Starting positions -/

/-- The bytes of a table. -/
def tableLength (image : ILImage) (type : Nat) : Nat :=
  (image.tokenSize type).toNat * (image.tokenCount type).toNat

/-- The tables of some types lie behind a position, in order, and within the blob. -/
structure Laid (blob : List ILUInt8) (typesPresent : ILUInt64) (image : ILImage) (types : List Nat)
    (index : Nat) : Prop where
  start : ∀ type ∈ types, typesPresent.getLsbD type = true → index ≤ image.tokenStart type
  within : ∀ type ∈ types, typesPresent.getLsbD type = true →
    image.tokenStart type + tableLength image type ≤ blob.length
  order : ∀ type ∈ types, ∀ other ∈ types, typesPresent.getLsbD type = true →
    typesPresent.getLsbD other = true → type < other →
    image.tokenStart type + tableLength image type ≤ image.tokenStart other

theorem Laid.mono {types : List Nat} {index index' : Nat}
    (h : Laid blob typesPresent image types index) (hindex : index' ≤ index) :
    Laid blob typesPresent image types index' :=
  ⟨fun type htype hset => hindex.trans (h.start type htype hset), h.within, h.order⟩

theorem startTypes_ends {types : List Nat} (hsorted : types.Pairwise (· < ·)) {cursor : MetaCursor}
    (hcursor : cursor.index + cursor.size = blob.length)
    (hsize : ∀ type ∈ types, typesPresent.getLsbD type = true → image.tokenSize type ≠ 0) :
    Ends (fun r => r.tokenCount = image.tokenCount ∧ r.tokenSize = image.tokenSize ∧
        (∀ type ∉ types, r.tokenStart type = image.tokenStart type) ∧
        Laid blob typesPresent r types cursor.index)
      IsLoadError (startTypes typesPresent types image cursor) := by
  induction types generalizing image cursor with
  | nil =>
    refine ⟨rfl, rfl, fun _ _ => rfl, ?_⟩
    constructor
    all_goals
      intro type htype
      cases htype
  | cons type types ih =>
    obtain ⟨hhead, hsorted⟩ := List.pairwise_cons.1 hsorted
    obtain ⟨hsizeHead, hsizes⟩ := List.forall_mem_cons.1 hsize
    have hnotMem : type ∉ types := fun h => Nat.lt_irrefl _ (hhead type h)
    unfold startTypes
    apply Ends.ite
    · intro hpresent
      apply Ends.ite
      · intro hzero
        exact absurd hzero (hsizeHead hpresent)
      · intro hnonzero
        apply Ends.ite
        · intro _
          exact isLoadError_badMeta
        · intro hroom
          have hpos : 0 < (image.tokenSize type).toNat := by
            apply Nat.pos_of_ne_zero
            intro hzero
            exact hnonzero (BitVec.eq_of_toNat_eq hzero)
          have hlen : (image.tokenSize type).toNat * (image.tokenCount type).toNat ≤ cursor.size := by
            rw [Nat.mul_comm]
            exact (Nat.le_div_iff_mul_le hpos).1 (Nat.not_lt.1 hroom)
          dsimp only
          generalize hend : (image.tokenSize type).toNat * (image.tokenCount type).toNat = len at hlen ⊢
          have hnext : (MetaCursor.mk (cursor.index + len) (cursor.size - len)).index +
              (MetaCursor.mk (cursor.index + len) (cursor.size - len)).size = blob.length := by
            dsimp only
            omega
          have hsizes : ∀ other ∈ types, typesPresent.getLsbD other = true →
              ({ image with tokenStart := Function.update image.tokenStart type cursor.index } :
                ILImage).tokenSize other ≠ 0 := hsizes
          apply (ih hsorted hnext hsizes).mono _ (fun _ he => he)
          rintro r ⟨hcount, hsize, hother, hlaid⟩
          have hstart : r.tokenStart type = cursor.index := by
            rw [hother type hnotMem]
            exact Function.update_self _ _ _
          have hlength : tableLength r type = len := by
            unfold tableLength
            rw [hcount, hsize]
            exact hend
          have hbehind (other : Nat) (hmem : other ∈ types)
              (hset : typesPresent.getLsbD other = true) := hlaid.start other hmem hset
          dsimp only at hbehind
          refine ⟨hcount, hsize, ?_, ?_, ?_, ?_⟩
          · intro other hnot
            rw [hother other fun h => hnot (.tail _ h)]
            apply Function.update_of_ne
            rintro rfl
            exact hnot List.mem_cons_self
          · intro other hmem hset
            obtain rfl | hmem := List.mem_cons.1 hmem
            · exact hstart.ge
            · exact (Nat.le_add_right _ _).trans (hbehind other hmem hset)
          · intro other hmem hset
            obtain rfl | hmem := List.mem_cons.1 hmem
            · rw [hstart, hlength]
              omega
            · exact hlaid.within other hmem hset
          · intro first hfirst second hsecond hset hset' hlt
            obtain rfl | hmem := List.mem_cons.1 hfirst
            · obtain rfl | hmem' := List.mem_cons.1 hsecond
              · exact absurd hlt (Nat.lt_irrefl _)
              · rw [hstart, hlength]
                exact hbehind second hmem' hset'
            · obtain rfl | hmem' := List.mem_cons.1 hsecond
              · exact absurd hlt (hhead first hmem).not_gt
              · exact hlaid.order first hmem second hmem' hset hset' hlt
    · intro habsent
      apply (ih hsorted hcursor hsizes).mono _ (fun _ he => he)
      rintro r ⟨hcount, hsize, hother, hlaid⟩
      have hmem {other : Nat} (h : other ∈ type :: types) (hset : typesPresent.getLsbD other = true) :
          other ∈ types := by
        obtain rfl | h := List.mem_cons.1 h
        · exact absurd hset habsent
        · exact h
      refine ⟨hcount, hsize, fun other hnot => hother other fun h => hnot (.tail _ h), ?_, ?_, ?_⟩
      · exact fun other h hset => hlaid.start other (hmem h hset) hset
      · exact fun other h hset => hlaid.within other (hmem h hset) hset
      · exact fun first h second h' hset hset' =>
          hlaid.order first (hmem h hset) second (hmem h' hset') hset hset'

/-! ### Validation -/

theorem preValidateRows_ends {type : Nat} (rows : List Nat)
    (hrows : ∀ row ∈ rows, Ends (fun _ => True) IsLoadError (parseToken image sizes
      (fieldDescriptions type) blob (image.tokenStart type + row * (image.tokenSize type).toNat)))
    {error : Option MetaStop} (herror : ∀ e, error = some e → IsLoadError e) :
    Ends (fun r => ∀ e, r = some e → IsLoadError e) IsLoadError
      (preValidateRows image sizes blob type rows error) := by
  induction rows generalizing error with
  | nil => exact herror
  | cons row rows ih =>
    obtain ⟨hrow, hrows⟩ := List.forall_mem_cons.1 hrows
    unfold preValidateRows
    revert hrow
    generalize parseToken image sizes (fieldDescriptions type) blob
      (image.tokenStart type + row * (image.tokenSize type).toNat) = result
    intro hrow
    cases result with
    | ok _ => exact ih hrows herror
    | error e =>
      have he : IsLoadError e := hrow
      obtain rfl | rfl := he
      · apply ih hrows
        intro e he
        cases error with
        | none =>
          cases he
          exact isLoadError_badMeta
        | some e' => exact herror e he
      · apply ih hrows
        intro e he
        cases error with
        | none =>
          cases he
          exact isLoadError_undocMeta
        | some e' => exact herror e he

theorem preValidate_ends (types : List Nat)
    (htypes : ∀ type ∈ types, ∀ row < (image.tokenCount type).toNat,
      Ends (fun _ => True) IsLoadError (parseToken image sizes (fieldDescriptions type) blob
        (image.tokenStart type + row * (image.tokenSize type).toNat)))
    {error : Option MetaStop} (herror : ∀ e, error = some e → IsLoadError e) :
    Ends (fun r => ∀ e, r = some e → IsLoadError e) IsLoadError
      (preValidate image sizes blob types error) := by
  induction types generalizing error with
  | nil => exact herror
  | cons type types ih =>
    obtain ⟨htype, htypes⟩ := List.forall_mem_cons.1 htypes
    unfold preValidate
    apply (preValidateRows_ends _ (fun row hrow => htype row (List.mem_range.1 hrow)) herror).bind
    intro error herror
    exact ih htypes herror

/-! ### The whole index -/

/-- The header says that there is such a table, and its rows are described. -/
def Present (blob : List ILUInt8) (type : Nat) (fields : List Field) : Prop :=
  fieldDescriptions type = some fields ∧
    ∃ bits, ilReadUInt64 blob 8 = .ok bits ∧ bits.getLsbD type = true

/-- A table lies behind the header and within the blob, and each row is read to its end. -/
structure TableSound (image : ILImage) (blob : List ILUInt8) (type : Nat) (fields : List Field) :
    Prop where
  rowSize : (image.tokenSize type).toNat = tokenSize image image.refSizes fields
  start : 24 ≤ image.tokenStart type
  within : image.tokenStart type + tableLength image type ≤ blob.length
  rows : ∀ row < (image.tokenCount type).toNat,
    ReadTo (image.tokenStart type + (row + 1) * (image.tokenSize type).toNat)
      (parseToken image image.refSizes (some fields) blob
        (image.tokenStart type + row * (image.tokenSize type).toNat))

theorem row_within {start size count row length : Nat} (hrow : row < count)
    (hwithin : start + size * count ≤ length) : start + row * size + size ≤ length := by
  have hle : (row + 1) * size ≤ count * size := Nat.mul_le_mul_right size hrow
  rw [Nat.add_mul, Nat.one_mul] at hle
  rw [Nat.mul_comm] at hwithin
  omega

/-- Rows within the blob are read to their ends. -/
theorem parseToken_readTo (hsizes : sizes.Valid) {type : Nat} {fields : List Field}
    (hfields : fieldDescriptions type = some fields)
    (hsize : (image.tokenSize type).toNat = tokenSize image sizes fields)
    (hwithin : image.tokenStart type + tableLength image type ≤ blob.length) {row : Nat}
    (hrow : row < (image.tokenCount type).toNat) :
    ReadTo (image.tokenStart type + (row + 1) * (image.tokenSize type).toNat)
      (parseToken image sizes (some fields) blob
        (image.tokenStart type + row * (image.tokenSize type).toNat)) := by
  have hroom := row_within hrow hwithin
  rw [Nat.add_mul, Nat.one_mul, ← Nat.add_assoc]
  rw [hsize] at hroom ⊢
  exact parseFields_readTo hsizes (Field.wellFormed_of_described (described_fieldDescriptions hfields))
    hroom

theorem ReadTo.ends {posn : Nat} {result : Except MetaStop (List ILUInt32 × Nat)}
    (h : ReadTo posn result) : Ends (fun _ => True) IsLoadError result := by
  obtain ⟨values, rfl⟩ | rfl := h
  · trivial
  · exact isLoadError_badMeta

/-- The tables as the three passes over their types leave them. -/
structure Tables (sizes : RefSizes) (blob : List ILUInt8) (bits : ILUInt64) (image : ILImage) :
    Prop where
  absent : ∀ type, fieldDescriptions type = none ∨ bits.getLsbD type = false →
    image.tokenCount type = 0
  rowSize : ∀ type fields, fieldDescriptions type = some fields → bits.getLsbD type = true →
    (image.tokenSize type).toNat = tokenSize image sizes fields
  laid : ∃ bits' : ILUInt64, Laid blob bits' image (List.range 64) 24 ∧
    ∀ type fields, fieldDescriptions type = some fields → bits'.getLsbD type = bits.getLsbD type

theorem mem_range_of_getLsbD {type : Nat} {bits : ILUInt64} (h : bits.getLsbD type = true) :
    type ∈ List.range 64 :=
  List.mem_range.2 (BitVec.lt_of_getLsbD h)

theorem Tables.mk' {image₁ : ILImage} {r : ILImage × ILUInt64}
    (hsized : ∀ type ∈ List.range 64, Sized sizes image₁ typesPresent type r)
    (hkept : ∀ type ∉ List.range 64, Kept image₁ typesPresent type r)
    (hcount : ∀ type, type ∉ List.range 64 ∨ typesPresent.getLsbD type = false →
      image₁.tokenCount type = 0)
    (hcounts : image.tokenCount = r.1.tokenCount) (hsizes : image.tokenSize = r.1.tokenSize)
    (hlaid : Laid blob r.2 image (List.range 64) 24) : Tables sizes blob typesPresent image := by
  have hsame (type : Nat) (htype : type < 0x2D) : image.tokenCount type = image₁.tokenCount type := by
    rw [hcounts]
    have h := (hsized type (List.mem_range.2 (by omega))).count
    exact h.resolve_right fun h => Nat.not_lt.2 h.1 htype
  refine ⟨?_, ?_, r.2, hlaid, ?_⟩
  · intro type htype
    rw [hcounts]
    by_cases hmem : type ∈ List.range 64
    · obtain hsame | hzero := (hsized type hmem).count
      · by_cases hset : typesPresent.getLsbD type = true
        · have hnone := htype.resolve_right (by rw [hset]; exact Bool.noConfusion)
          exact ((hsized type hmem).undescribed hnone).2 hset
        · exact hsame.trans (hcount type (.inr (Bool.eq_false_iff.2 hset)))
      · exact hzero.2
    · exact (hkept type hmem).1.trans (hcount type (.inl hmem))
  · intro type fields hfields hset
    have hsize := ((hsized type (mem_range_of_getLsbD hset)).described fields hfields).2 hset
    rw [hsizes, hsize]
    exact (tokenSize_congr (Field.wellFormed_of_described (described_fieldDescriptions hfields))
      hsame).symm
  · intro type fields hfields
    by_cases hmem : type ∈ List.range 64
    · exact ((hsized type hmem).described fields hfields).1
    · exact (hkept type hmem).2.2

/-- Only tables with rows of some size are laid out. -/
theorem tokenSize_ne_zero (hsizes : sizes.Valid) {r : ILImage × ILUInt64} {type : Nat}
    (hsized : Sized sizes image typesPresent type r) (hset : r.2.getLsbD type = true) :
    r.1.tokenSize type ≠ 0 := by
  cases hfields : fieldDescriptions type with
  | none =>
    rw [(hsized.undescribed hfields).1] at hset
    cases hset
  | some fields =>
    obtain ⟨hpresent, hsize⟩ := hsized.described fields hfields
    have hpos := (tokenSize_described image hsizes (described_fieldDescriptions hfields)).1
    intro hzero
    rw [hpresent] at hset
    rw [← hsize hset, hzero] at hpos
    exact absurd hpos (Nat.lt_irrefl 0)

/-- Validation finds no row that is not read to its end. -/
theorem Tables.preValidate_ends (hsizes : sizes.Valid) (h : Tables sizes blob typesPresent image) :
    Ends (fun r => ∀ e, r = some e → IsLoadError e) IsLoadError
      (preValidate image sizes blob (List.range 64) none) := by
  apply Pnet.Image.preValidate_ends
  · intro type _ row hrow
    obtain ⟨bits', hlaid, hbits⟩ := h.laid
    cases hfields : fieldDescriptions type with
    | none => exact isLoadError_undocMeta
    | some fields =>
      by_cases hset : typesPresent.getLsbD type = true
      · have hset' := (hbits type fields hfields).trans hset
        exact (parseToken_readTo hsizes hfields (h.rowSize type fields hfields hset)
          (hlaid.within type (mem_range_of_getLsbD hset') hset') hrow).ends
      · rw [h.absent type (.inr (Bool.eq_false_iff.2 hset))] at hrow
        exact absurd hrow (Nat.not_lt_zero _)
  · intro e he
    cases he

theorem Tables.congr {image' : ILImage} (h : Tables sizes blob typesPresent image)
    (hcount : image'.tokenCount = image.tokenCount) (hsize : image'.tokenSize = image.tokenSize)
    (hstart : image'.tokenStart = image.tokenStart) : Tables sizes blob typesPresent image' := by
  obtain ⟨bits', hlaid, hbits⟩ := h.laid
  have hlength (type : Nat) : tableLength image' type = tableLength image type := by
    unfold tableLength
    rw [hcount, hsize]
  refine ⟨?_, ?_, bits', ⟨?_, ?_, ?_⟩, hbits⟩
  · intro type htype
    rw [hcount]
    exact h.absent type htype
  · intro type fields hfields hset
    rw [hsize, h.rowSize type fields hfields hset]
    exact (tokenSize_congr (Field.wellFormed_of_described (described_fieldDescriptions hfields))
      fun other _ => congrFun hcount other).symm
  · intro type htype hset
    rw [hstart]
    exact hlaid.start type htype hset
  · intro type htype hset
    rw [hstart, hlength]
    exact hlaid.within type htype hset
  · intro type htype other hother hset hset' hlt
    rw [hstart, hlength]
    exact hlaid.order type htype other hother hset hset' hlt

/-- Of the tables before validation, those that are there are sound afterwards. -/
theorem Tables.sound (hsizes : sizes.Valid) (h : Tables sizes blob typesPresent image)
    (hrefs : image.refSizes = sizes) {type : Nat} {fields : List Field}
    (hfields : fieldDescriptions type = some fields) (hset : typesPresent.getLsbD type = true) :
    TableSound image blob type fields := by
  obtain ⟨bits', hlaid, hbits⟩ := h.laid
  have hset' := (hbits type fields hfields).trans hset
  have hmem := mem_range_of_getLsbD hset'
  have hsize := h.rowSize type fields hfields hset
  have hwithin := hlaid.within type hmem hset'
  rw [← hrefs] at hsize hsizes
  exact ⟨hsize, hlaid.start type hmem hset', hwithin, fun row hrow =>
    parseToken_readTo hsizes hfields hsize hwithin hrow⟩

theorem Tables.order (h : Tables sizes blob typesPresent image) {type other : Nat}
    {fields fields' : List Field} (hfields : fieldDescriptions type = some fields)
    (hset : typesPresent.getLsbD type = true) (hfields' : fieldDescriptions other = some fields')
    (hset' : typesPresent.getLsbD other = true) (hlt : type < other) :
    image.tokenStart type + tableLength image type ≤ image.tokenStart other := by
  obtain ⟨bits', hlaid, hbits⟩ := h.laid
  have hset := (hbits type fields hfields).trans hset
  have hset' := (hbits other fields' hfields').trans hset'
  exact hlaid.order type (mem_range_of_getLsbD hset) other (mem_range_of_getLsbD hset') hset hset' hlt

/-- A blob that parses holds the tables that its header announces one behind the other, with rows
as long as reading them takes; and no blob makes the parser read outside it or divide by zero. -/
theorem parseMetaIndex_ends (stringPoolSize : ILUInt32) (blobPool : List ILUInt8)
    (guidSize : Option ILUInt32) (index : Option (List ILUInt8)) (preValidating : Bool) :
    Ends (fun image => ∃ blob, index = some blob ∧
        (∀ type fields, Present blob type fields → TableSound image blob type fields) ∧
        ∀ type other fields fields', Present blob type fields → Present blob other fields' →
          type < other → image.tokenStart type + tableLength image type ≤ image.tokenStart other)
      IsLoadError
      (parseMetaIndex { stringPoolSize, blobPool, guidSize } index preValidating) := by
  cases index with
  | none => exact isLoadError_badMeta
  | some blob =>
    unfold parseMetaIndex
    dsimp only [bind_pure_comp, pure_bind]
    apply Ends.ite
    · intro _
      exact isLoadError_badMeta
    · intro hlen
      have hroom : 24 ≤ blob.length := Nat.not_lt.1 hlen
      rw [List.getElem?_eq_getElem (show 6 < blob.length by omega)]
      generalize blob[6] = sizeBits
      dsimp only
      generalize hrefs : RefSizes.mk (if BitVec.getLsbD sizeBits 0 = true then 4 else 2)
        (if BitVec.getLsbD sizeBits 2 = true then 4 else 2)
        (if BitVec.getLsbD sizeBits 1 = true then 4 else 2) = sizes
      obtain ⟨typesPresent, htypes⟩ := ilReadUInt64_of_le (show 8 + 8 ≤ blob.length by omega)
      obtain ⟨sorted, hsorted⟩ := ilReadUInt64_of_le (show 16 + 8 ≤ blob.length by omega)
      have hcursor : (MetaCursor.mk 24 (blob.length - 24)).index +
          (MetaCursor.mk 24 (blob.length - 24)).size = blob.length := by
        dsimp only
        omega
      have hsizes : sizes.Valid := by
        rw [← hrefs]
        constructor <;> dsimp only <;> split <;> simp
      rw [htypes, hsorted]
      dsimp only [bind, Except.bind]
      apply (parseCounts_ends (List.range 64) hcursor).bind
      rintro ⟨image₁, cursor⟩ ⟨hcursor, hindex, hcount⟩
      apply (sizeTypes_ends hsizes List.pairwise_lt_range).bind
      rintro r ⟨hsized, hkept⟩
      apply (startTypes_ends List.pairwise_lt_range hcursor fun type htype hset =>
        tokenSize_ne_zero hsizes (hsized type htype) hset).bind
      rintro image ⟨hcounts, hsize, -, hlaid⟩
      have htables : Tables sizes blob typesPresent image :=
        .mk' hsized hkept hcount hcounts hsize (hlaid.mono hindex)
      have hdone (image' : ILImage) (htables : Tables sizes blob typesPresent image')
          (hrefs : image'.refSizes = sizes) : ∃ blob', some blob = some blob' ∧
          (∀ type fields, Present blob' type fields → TableSound image' blob' type fields) ∧
          ∀ type other fields fields', Present blob' type fields → Present blob' other fields' →
            type < other →
              image'.tokenStart type + tableLength image' type ≤ image'.tokenStart other := by
        have hset {type : Nat} {fields : List Field} (h : Present blob type fields) :
            typesPresent.getLsbD type = true := by
          obtain ⟨-, bits, hbits, hset⟩ := h
          rw [htypes] at hbits
          cases hbits
          exact hset
        exact ⟨blob, rfl, fun type fields h => htables.sound hsizes hrefs h.1 (hset h),
          fun type other fields fields' h h' hlt => htables.order h.1 (hset h) h'.1 (hset h') hlt⟩
      split
      · apply (htables.preValidate_ends hsizes).bind
        intro error herror
        cases error with
        | some e => exact herror e rfl
        | none => exact hdone _ (htables.congr rfl rfl rfl) hrefs
      · exact hdone _ (htables.congr rfl rfl rfl) hrefs

/-- A row of the table of type references, whose scope is the one module. -/
example : (parseMetaIndex ⟨1, [], none, false, false, false, fun _ => 0, fun _ => 0, fun _ => 0, 0⟩
    (some ([0, 0, 0, 0, 1, 0, 0, 1, 3, 0, 0, 0, 0, 0, 0, 0, 0, 0, 0, 0, 0, 0, 0, 0] ++
      [1, 0, 0, 0, 1, 0, 0, 0] ++ [0, 0, 0, 0, 0, 0, 0, 0, 0, 0] ++ [4, 0, 0, 0, 0, 0]))
    true).map (fun image => (image.tokenStart 0, image.tokenStart 1)) = .ok (32, 42) := by
  rfl

end Pnet.Image
