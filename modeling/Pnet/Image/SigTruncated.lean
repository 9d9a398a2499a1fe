import Pnet.Image.CompressSound
import Pnet.Image.SigParse

/-! Signatures in blobs that break off. A field and the local variables are accepted behind the
end of a blob, where what is missing passes for zeros. -/
namespace Pnet.Image.SigParse
open Pnet.Lib CutOff

section

variable {σ : Type}

abbrev Decode (σ : Type) := Decoder (σ × List ILUInt8)

def readerOf (t : σ × List ILUInt8) : State σ := (t.1, ⟨t.2, false⟩)

/-- The reader has run out of bytes. -/
def RanOut (s : State σ) : Prop := s.2 = .fail

def ZeroValue (value : ILUInt32) : Prop := value = 0

def Anything {α : Type} (_ : α) : Prop := True

/-- What a function pointer may point to. -/
def IsMethod (sig : SigKind × ILType) : Prop := sig.1 = .methodDef ∨ sig.1 = .methodRef

def Nothing {α : Type} (_ : α) : Prop := False

/-! ### What an encoding is -/

/-- The number of bytes that the first byte of a compressed integer announces. -/
def intFormLength (ch : ILUInt8) : Option Nat :=
  if ch &&& 0x80 = 0x00 then some 1
  else if ch &&& 0xC0 = 0x80 then some 2
  else if ch &&& 0xE0 = 0xC0 then some 4
  else some 5

/-- A compressed item, which breaks off when it has not all the bytes it announces. -/
def item (length : ILUInt8 → Option Nat) (read : ILMetaDataRead → ILUInt32 × ILMetaDataRead) :
    Decode σ ILUInt32 := fun t =>
  match t.2 with
  | [] => .cut true
  | ch :: data =>
    match length ch with
    | none => .malformed
    | some n =>
      if n ≤ data.length + 1 then
        .whole (read ⟨t.2, false⟩).1 (t.1, (read ⟨t.2, false⟩).2.data)
      else .cut true

def decodeData : Decode σ ILUInt32 := item formLength ilMetaUncompressData

def decodeInt : Decode σ ILInt32 := item intFormLength ilMetaUncompressInt

def decodeToken : Decode σ ILToken := item formLength ilMetaUncompressToken

def decodeByte : Decode σ ILUInt8 := fun t =>
  match t.2 with
  | [] => .cut false
  | byte :: data => .whole byte (t.1, data)

/-- What needs no bytes: questions to the image, a look at the next byte. -/
def asks {α : Type} (p : Parse σ α) : Decode σ α := fun t =>
  match p (readerOf t) with
  | some (a, s) => .whole a (s.1, s.2.data)
  | none => .malformed

variable (ops : ImageOps σ)

def decodeSizes : Nat → Nat → ILType → Decode σ ILType
  | 0, _, array => .pure array
  | left + 1, dim, array => decodeInt.andThen true fun value =>
    if value.toInt < 0 then .malformed
    else decodeSizes left (dim + 1) (ilTypeSetSize array dim value.toInt)

def decodeLowBounds : Nat → Nat → ILType → Decode σ ILType
  | 0, _, array => .pure array
  | left + 1, dim, array => decodeInt.andThen true fun value =>
    decodeLowBounds left (dim + 1) (ilTypeSetLowBound array dim value.toInt)

def decodeBounds (rank : ILUInt32) (array : ILType) : Decode σ ILType :=
  decodeData.andThen true fun numLowBounds =>
    if numLowBounds > rank then .malformed
    else decodeLowBounds numLowBounds.toNat 0 array

/-- Behind the rank, what is missing passes for a shape without sizes and bounds. -/
def decodeArrayShape (elemType : ILType) : Decode σ ILType :=
  decodeData.andThen false fun rank =>
    if rank = 0 then .malformed
    else decodeData.andThen true fun numSizes =>
      if numSizes > rank then .malformed
      else (decodeSizes numSizes.toNat 0 (ilTypeCreateArray rank.toNat elemType)).andThen true
        fun array => decodeBounds rank array

def decodeParams (elemType : Decode σ ILType) : Nat → ILType → Decode σ ILType
  | 0, type => .pure type
  | left + 1, type => elemType.andThen (decide (left = 0)) fun paramType =>
    (asks (addParam ops type paramType)).andThen true fun type => decodeParams elemType left type

def decodeAfterSentinel (elemType : Decode σ ILType) : Nat → ILType → Decode σ (SigKind × ILType)
  | 0, type => if sentinelAllowed type then .pure (.methodRef, type) else .malformed
  | left + 1, type => (asks (isAt sentinelByte)).andThen true fun sentinel =>
    if sentinel then .malformed
    else elemType.andThen (decide (left = 0) && sentinelAllowed type) fun paramType =>
      (asks (addParam ops type paramType)).andThen true fun type =>
        decodeAfterSentinel elemType left type

def decodeMethodParams (elemType : Decode σ ILType) (numParams : ILUInt32) :
    Nat → ILType → Decode σ (SigKind × ILType)
  | 0, type => .pure (.methodDef, type)
  | left + 1, type => (asks (isAt sentinelByte)).andThen true fun sentinel =>
    if sentinel then
      if numParams > 0xFFFE then .malformed
      else (asks skipByte).andThen true fun _ =>
        (asks (addSentinel ops type)).andThen true fun type =>
          decodeAfterSentinel ops elemType (left + 1) type
    else elemType.andThen (decide (left = 0)) fun paramType =>
      (asks (addParam ops type paramType)).andThen true fun type =>
        decodeMethodParams elemType numParams left type

/-- The decoders with one level less; a function pointer has no other signature than a method. -/
structure DecodeBelow (σ : Type) where
  elemType : ILUInt32 → Decode σ ILType
  fnPtr : Decode σ ILType

/-- A modifier without bytes behind it breaks off. -/
def decodeModifiers (categories : ILUInt32) :
    Nat → ILUInt32 → Decode σ (List (Bool × ClassId) × ILUInt32)
  | rounds, value =>
    if value = cmodReqd ∨ value = cmodOpt then
      if categories &&& categoryCMod = 0 then .malformed
      else
        match rounds with
        | 0 => fun _ => .cut false
        | rounds + 1 => decodeToken.andThen false fun token =>
          (asks (tokenInfo ops token)).andThen true fun info =>
            decodeData.andThen true fun next =>
              (decodeModifiers categories rounds next).andThen true fun rest =>
                .pure ((decide (value = cmodReqd), info) :: rest.1, rest.2)
    else .pure ([], value)

def decodeDeeper (below : Option (DecodeBelow σ)) (decode : DecodeBelow σ → Decode σ ILType) :
    Decode σ ILType :=
  below.elim .malformed decode

def decodeClassToken (info : ILToken → Parse σ ClassId) (type : ClassId → ILType) :
    Decode σ ILType :=
  decodeToken.andThen false fun token =>
    if token = 0 then .malformed
    else (asks (info token)).andThen true fun info => .pure (type info)

def decodeWith (elemType : Decode σ ILType) : Decode σ ILType :=
  elemType.andThen false fun mainType => decodeByte.andThen false fun count =>
    decodeParams ops elemType count.toNat (.signature ilTypeComplexWith 0 mainType [])

def decodeElemCase (below : Option (DecodeBelow σ)) (categories value : ILUInt32) :
    Decode σ ILType :=
  match elemCase value with
  | .void => if categories &&& categoryVoid ≠ 0 then .pure ilTypeVoid else .malformed
  | .simple => .pure (.primitive value.toNat)
  | .system name =>
    (asks (classResolveSystem ops name)).andThen true fun info => .pure (.class info)
  | .ptr => decodeDeeper below fun below =>
    (below.elemType (categoryCMod ||| categoryVoid)).andThen true fun type => .pure (.ptr type)
  | .byRef =>
    if categories &&& categoryByRef ≠ 0 then decodeDeeper below fun below =>
      (below.elemType (categories &&& ~~~categoryByRef)).andThen true fun type =>
        .pure (.byRef type)
    else .malformed
  | .valueType => decodeClassToken (tokenInfo ops) .valueType
  | .classType => decodeClassToken (classInfo ops) .class
  | .array => decodeDeeper below fun below => (below.elemType 0).andThen false decodeArrayShape
  | .szArray => decodeDeeper below fun below =>
    (below.elemType categoryCMod).andThen true fun type => .pure (ilTypeCreateArray 1 type)
  | .typedByRef =>
    if categories &&& categoryTypedByRef ≠ 0 then .pure (.primitive ElemType.typedByRef)
    else .malformed
  | .fnPtr => decodeDeeper below DecodeBelow.fnPtr
  | .pinned =>
    if categories &&& categoryPinned ≠ 0 then decodeDeeper below fun below =>
      (below.elemType categories).andThen true fun type => .pure (.pinned type)
    else .malformed
  | .with => decodeDeeper below fun below => decodeWith ops (below.elemType categories)
  | .mvar => decodeByte.andThen false fun num => .pure (.mvar num.toNat)
  | .var => decodeByte.andThen false fun num => .pure (.var num.toNat)
  | .other => .malformed

def decodeElemType (below : Option (DecodeBelow σ)) (categories : ILUInt32) : Decode σ ILType :=
  decodeData.andThen false fun first => (asks bytesLeft).andThen true fun rounds =>
    (decodeModifiers ops categories rounds first).andThen false fun modified =>
      (decodeElemCase ops below categories modified.2).andThen true fun type =>
        .pure (ilTypeAddModifiers modified.1 type)

def decodeNumGeneric (sigKind : ILUInt32) : Decode σ ILUInt32 :=
  if sigKind &&& 0x10 ≠ 0 then decodeData.andThen true fun numGenericParams =>
    if numGenericParams > 0xFF then .malformed else .pure numGenericParams
  else .pure 0

def decodeRetType (below : DecodeBelow σ) (sigKind : ILUInt32) : Decode σ ILType :=
  if isInstantiation sigKind then .pure .invalid
  else below.elemType (categoryCMod ||| categoryVoid ||| categoryTypedByRef ||| categoryByRef)

def decodeMethod (below : Option (DecodeBelow σ)) (sigKind numGenericParams numParams : ILUInt32) :
    Decode σ (SigKind × ILType) :=
  below.elim .malformed fun below =>
    (decodeRetType below sigKind).andThen (decide (numParams = 0)) fun retType =>
      (asks (createMethod ops sigKind numGenericParams retType)).andThen true fun type =>
        decodeMethodParams ops (below.elemType paramCategories) numParams numParams.toNat type

def decodeProperty (below : Option (DecodeBelow σ)) (numParams : ILUInt32) :
    Decode σ (SigKind × ILType) :=
  below.elim .malformed fun below =>
    (below.elemType 0).andThen (decide (numParams = 0)) fun propType =>
      (asks (createProperty ops propType)).andThen true fun type =>
        (decodeParams ops (below.elemType paramCategories) numParams.toNat type).andThen true
          fun type => .pure (.property, type)

/-- The counts that are missing pass for zeros in an instantiation, which has no return type. -/
def countsPass (below : Option (DecodeBelow σ)) (sigKind : ILUInt32) : Bool :=
  isInstantiation sigKind && below.isSome

def decodeSigCase (below : Option (DecodeBelow σ)) (sigKind : ILUInt32) :
    Decode σ (SigKind × ILType) :=
  match sigCase sigKind with
  | .method => (decodeNumGeneric sigKind).andThen (countsPass below sigKind) fun numGenericParams =>
    decodeData.andThen (countsPass below sigKind) fun numParams =>
      if numParams > 0xFFFF then .malformed
      else decodeMethod ops below sigKind numGenericParams numParams
  | .field => below.elim .malformed fun below =>
    (below.elemType categoryAll).andThen true fun type => .pure (.field, type)
  | .property => decodeData.andThen false fun numParams =>
    if numParams > 0xFFFD then .malformed else decodeProperty ops below numParams
  | .other => .malformed

def decodeSignature (below : Option (DecodeBelow σ)) : Decode σ (SigKind × ILType) :=
  decodeData.andThen false fun sigKind => decodeSigCase ops below sigKind

def decodeFnPtr (below : Option (DecodeBelow σ)) : Decode σ ILType :=
  decodeData.andThen false fun sigKind =>
    (decodeSigCase ops below sigKind).andThen (decide (sigCase sigKind = .method)) fun sig =>
      if sig.1 = .methodDef ∨ sig.1 = .methodRef then .pure sig.2 else .malformed

def decoders : Nat → DecodeBelow σ
  | 0 => ⟨decodeElemType ops none, decodeFnPtr ops none⟩
  | depth + 1 =>
    ⟨decodeElemType ops (some (decoders depth)), decodeFnPtr ops (some (decoders depth))⟩

end

/-! ### Reading -/

section Reading

variable {σ : Type} {α β : Type}

/-- The parser of the code agrees with the decoder. -/
abbrev Parses (zero : α → Prop) (p : Parse σ α) (d : Decode σ α) : Prop :=
  Agrees readerOf RanOut zero p d

theorem ranOut_eq {s : State σ} (h : RanOut s) : s = (s.1, .fail) := Prod.ext rfl h

theorem reader_eq {reader : ILMetaDataRead} (h : reader.error = false) :
    reader = ⟨reader.data, false⟩ := by
  rw [← h]

/-- One read of the reader's. -/
def reading {α : Type} (read : ILMetaDataRead → α × ILMetaDataRead) : Parse σ α := fun s =>
  some ((read s.2).1, s.1, (read s.2).2)

theorem reading_eq {read : ILMetaDataRead → α × ILMetaDataRead} {s : State σ} {a : α}
    {reader : ILMetaDataRead} (h : read s.2 = (a, reader)) :
    reading read s = some (a, s.1, reader) := by
  unfold reading
  rw [h]

theorem item_agrees {length : ILUInt8 → Option Nat}
    {read : ILMetaDataRead → ILUInt32 × ILMetaDataRead} (hnil : read ⟨[], false⟩ = (0, .fail))
    (hwhole : ∀ ch data n, length ch = some n → n ≤ data.length + 1 →
      (read ⟨ch :: data, false⟩).2.error = false)
    (hcut : ∀ ch data n, length ch = some n → ¬ n ≤ data.length + 1 →
      read ⟨ch :: data, false⟩ = (0, .fail)) :
    Parses ZeroValue (reading read : Parse σ ILUInt32) (item length read) := by
  rintro ⟨image, bytes⟩
  unfold item
  cases bytes with
  | nil => exact ⟨0, (image, .fail), reading_eq hnil, rfl, rfl⟩
  | cons ch data =>
    dsimp only
    cases hlength : length ch with
    | none => trivial
    | some n =>
      dsimp only
      by_cases hn : n ≤ data.length + 1
      · rw [if_pos hn]
        exact reading_eq (Prod.ext rfl (reader_eq (hwhole ch data n hlength hn)))
      · rw [if_neg hn]
        exact ⟨0, (image, .fail), reading_eq (hcut ch data n hlength hn), rfl, rfl⟩

theorem reading_failed {read : ILMetaDataRead → ILUInt32 × ILMetaDataRead}
    (hfail : read .fail = (0, .fail)) :
    OnFailed RanOut ZeroValue true (reading read : Parse σ ILUInt32) := by
  intro s hs
  rw [ranOut_eq hs]
  exact ⟨0, (s.1, .fail), reading_eq hfail, rfl, rfl⟩

/-- A whole item is read without an error, and of another one nothing is left. -/
theorem readData_of_form {ch : ILUInt8} {n : Nat} (data : List ILUInt8)
    (h : formLength ch = some n) :
    (n ≤ data.length + 1 → (ilMetaUncompressData ⟨ch :: data, false⟩).2.error = false) ∧
      (¬ n ≤ data.length + 1 → ilMetaUncompressData ⟨ch :: data, false⟩ = (0, .fail)) := by
  unfold formLength at h
  unfold ilMetaUncompressData
  dsimp only
  split_ifs at h ⊢ with h1 h2 h3 h4
  · cases h
    exact ⟨fun _ => rfl, fun hn => absurd (Nat.succ_pos _) hn⟩
  · cases h
    rcases data with _ | ⟨ch2, data⟩ <;> simp
  · cases h
    rcases data with _ | ⟨ch2, _ | ⟨ch3, _ | ⟨ch4, data⟩⟩⟩ <;> simp
  · cases h
    rcases data with _ | ⟨ch2, _ | ⟨ch3, _ | ⟨ch4, _ | ⟨ch5, data⟩⟩⟩⟩ <;> simp

theorem readInt_of_form {ch : ILUInt8} {data : List ILUInt8} {n : Nat}
    (h : intFormLength ch = some n) :
    (n ≤ data.length + 1 → (ilMetaUncompressInt ⟨ch :: data, false⟩).2.error = false) ∧
      (¬ n ≤ data.length + 1 → ilMetaUncompressInt ⟨ch :: data, false⟩ = (0, .fail)) := by
  unfold intFormLength at h
  unfold ilMetaUncompressInt
  dsimp only
  split_ifs at h ⊢ with h1 h2 h3 h4
  · cases h
    exact ⟨fun _ => rfl, fun hn => absurd (Nat.succ_pos _) hn⟩
  · cases h
    exact ⟨fun _ => rfl, fun hn => absurd (Nat.succ_pos _) hn⟩
  · cases h
    rcases data with _ | ⟨ch2, data⟩
    · simp
    · dsimp only
      split_ifs <;> simp
  · cases h
    rcases data with _ | ⟨ch2, _ | ⟨ch3, _ | ⟨ch4, data⟩⟩⟩
    · simp
    · simp
    · simp
    · dsimp only
      split_ifs <;> simp
  · cases h
    rcases data with _ | ⟨ch2, _ | ⟨ch3, _ | ⟨ch4, _ | ⟨ch5, data⟩⟩⟩⟩ <;> simp

theorem readToken_of_form {ch : ILUInt8} {data : List ILUInt8} {n : Nat}
    (h : formLength ch = some n) :
    (n ≤ data.length + 1 → (ilMetaUncompressToken ⟨ch :: data, false⟩).2.error = false) ∧
      (¬ n ≤ data.length + 1 → ilMetaUncompressToken ⟨ch :: data, false⟩ = (0, .fail)) := by
  obtain ⟨hwhole, hcut⟩ := readData_of_form data h
  unfold ilMetaUncompressToken
  constructor
  · intro hn
    have herror := hwhole hn
    dsimp only
    rw [if_neg (by rw [herror]; exact Bool.false_ne_true)]
    split_ifs <;> exact herror
  · intro hn
    rw [hcut hn]
    rfl

theorem data_agrees : Parses ZeroValue (uncompressData : Parse σ ILUInt32) decodeData :=
  item_agrees rfl (fun _ data _ h => (readData_of_form data h).1) fun _ data _ h =>
    (readData_of_form data h).2

theorem int_agrees : Parses ZeroValue (uncompressInt : Parse σ ILInt32) decodeInt :=
  item_agrees rfl (fun _ _ _ h => (readInt_of_form h).1) fun _ _ _ h => (readInt_of_form h).2

theorem token_agrees : Parses ZeroValue (uncompressToken : Parse σ ILToken) decodeToken :=
  item_agrees rfl (fun _ _ _ h => (readToken_of_form h).1) fun _ _ _ h => (readToken_of_form h).2

theorem data_failed : OnFailed RanOut ZeroValue true (uncompressData : Parse σ ILUInt32) :=
  reading_failed rfl

theorem int_failed : OnFailed RanOut ZeroValue true (uncompressInt : Parse σ ILInt32) :=
  reading_failed rfl

theorem byte_agrees : Parses Nothing (rawByte : Parse σ ILUInt8) decodeByte := by
  rintro ⟨image, bytes⟩
  cases bytes with
  | nil => rfl
  | cons byte data => rfl

theorem byte_failed : OnFailed RanOut Anything false (rawByte : Parse σ ILUInt8) := by
  intro s hs
  rw [ranOut_eq hs]
  rfl

/-- What needs no bytes does not break off. -/
theorem asks_agrees {p : Parse σ α}
    (h : ∀ t a s, p (readerOf t) = some (a, s) → s.2.error = false) :
    Parses Nothing p (asks p) := by
  intro t
  unfold asks
  cases hp : p (readerOf t) with
  | none => trivial
  | some found =>
    obtain ⟨a, image, reader⟩ := found
    have herror : reader.error = false := h t a (image, reader) hp
    exact congrArg (fun reader => some (a, image, reader)) (reader_eq herror)

theorem asked {p : Parse σ α} {k : α → Parse σ β} {k' : α → Decode σ β} {zero : β → Prop}
    (h : ∀ t a s, p (readerOf t) = some (a, s) → s.2.error = false)
    (hk : ∀ a, Parses zero (k a) (k' a)) : Parses zero (p >>= k) ((asks p).andThen true k') :=
  (asks_agrees h).andThen hk fun _ h => h.elim

theorem anything_failed {p : Parse σ α} {k : α → Parse σ β} {zero : β → Prop} {passes : Bool}
    (hp : OnFailed RanOut Anything true p) (hk : ∀ a, OnFailed RanOut zero passes (k a)) :
    OnFailed RanOut zero passes (p >>= k) := hp.bind fun a _ => hk a

theorem zero_failed {p : Parse σ ILUInt32} {k : ILUInt32 → Parse σ β} {zero : β → Prop}
    {passes : Bool} (hp : OnFailed RanOut ZeroValue true p)
    (hk : OnFailed RanOut zero passes (k 0)) :
    OnFailed RanOut zero passes (p >>= k) :=
  hp.bind fun a ha => (show a = 0 from ha) ▸ hk

end Reading

/-! ### Array shapes -/

section Shapes

variable {σ : Type}

/-- A missing number is not above another one. -/
theorem not_zero_gt (value : ILUInt32) : ¬ 0 > value := fun h =>
  absurd (BitVec.lt_def.mp h) (Nat.not_lt_zero _)

theorem sizes_failed (left dim : Nat) (array : ILType) :
    OnFailed RanOut Anything true (parseSizes left dim array : Parse σ ILType) := by
  induction left generalizing dim array with
  | zero => exact .pure trivial
  | succ left ih =>
    apply zero_failed int_failed
    rw [if_neg (by decide)]
    exact ih _ _

theorem sizes_agrees (left dim : Nat) (array : ILType) :
    Parses Anything (parseSizes left dim array : Parse σ ILType) (decodeSizes left dim array) := by
  induction left generalizing dim array with
  | zero => exact .pure array
  | succ left ih =>
    apply int_agrees.andThen
    · intro value
      exact .ite .malformed (ih _ _)
    · intro value hvalue
      rw [hvalue, if_neg (by decide)]
      exact sizes_failed _ _ _

theorem lowBounds_failed (left dim : Nat) (array : ILType) :
    OnFailed RanOut Anything true (parseLowBounds left dim array : Parse σ ILType) := by
  induction left generalizing dim array with
  | zero => exact .pure trivial
  | succ left ih => exact zero_failed int_failed (ih _ _)

theorem lowBounds_agrees (left dim : Nat) (array : ILType) :
    Parses Anything (parseLowBounds left dim array : Parse σ ILType)
      (decodeLowBounds left dim array) := by
  induction left generalizing dim array with
  | zero => exact .pure array
  | succ left ih =>
    apply int_agrees.andThen
    · intro value
      exact ih _ _
    · intro value _
      exact lowBounds_failed _ _ _

theorem bounds_failed (rank : ILUInt32) (array : ILType) :
    OnFailed RanOut Anything true (parseBounds rank array : Parse σ ILType) := by
  apply zero_failed data_failed
  rw [if_neg (not_zero_gt rank)]
  exact lowBounds_failed _ _ _

theorem bounds_agrees (rank : ILUInt32) (array : ILType) :
    Parses Anything (parseBounds rank array : Parse σ ILType) (decodeBounds rank array) := by
  apply data_agrees.andThen
  · intro numLowBounds
    exact .ite .malformed (lowBounds_agrees _ _ _)
  · intro numLowBounds hzero
    rw [hzero, if_neg (not_zero_gt rank)]
    exact lowBounds_failed _ _ _

/-- Without a rank there is no shape. -/
theorem arrayShape_failed (elemType : ILType) :
    OnFailed RanOut Anything false (parseArrayShape elemType : Parse σ ILType) := by
  apply zero_failed data_failed
  rw [if_pos (Eq.refl 0)]
  exact .failure

theorem arrayShape_agrees (elemType : ILType) :
    Parses Anything (parseArrayShape elemType : Parse σ ILType) (decodeArrayShape elemType) := by
  apply data_agrees.andThen
  · intro rank
    refine .ite .malformed (data_agrees.andThen ?_ ?_)
    · intro numSizes
      refine .ite .malformed
        ((sizes_agrees _ _ _).andThen (fun array => bounds_agrees rank array) ?_)
      exact fun array _ => bounds_failed rank array
    · intro numSizes hzero
      rw [hzero, if_neg (not_zero_gt rank)]
      exact anything_failed (sizes_failed _ _ _) fun array => bounds_failed rank array
  · intro rank hzero
    rw [hzero, if_pos (Eq.refl 0)]
    exact .failure

end Shapes

/-! ### Parameters -/

section Params

variable {σ : Type} (ops : ImageOps σ)

theorem addParam_error {type paramType : ILType} (t : σ × List ILUInt8) (a : ILType)
    (s : State σ) (h : addParam ops type paramType (readerOf t) = some (a, s)) :
    s.2.error = false := by
  cases h
  rfl

theorem isAt_reader {byte : ILUInt8} (t : σ × List ILUInt8) (a : Bool) (s : State σ)
    (h : isAt byte (readerOf t) = some (a, s)) : s.2.error = false := by
  cases h
  rfl

theorem skipByte_error (t : σ × List ILUInt8) (a : Unit) (s : State σ)
    (h : skipByte (readerOf t) = some (a, s)) : s.2.error = false := by
  cases h
  rfl

theorem addSentinel_error {type : ILType} (t : σ × List ILUInt8) (a : ILType) (s : State σ)
    (h : addSentinel ops type (readerOf t) = some (a, s)) : s.2.error = false := by
  cases type <;> cases h <;> rfl

theorem addParam_failed (type paramType : ILType) :
    OnFailed RanOut Anything true (addParam ops type paramType) := fun s hs =>
  ⟨_, s, rfl, hs, trivial⟩

theorem isAt_failed (byte : ILUInt8) {β : Type} {zero : β → Prop} {passes : Bool}
    {k : Bool → Parse σ β} (hk : OnFailed RanOut zero passes (k false)) :
    OnFailed RanOut zero passes (isAt byte >>= k) := by
  intro s hs
  have hat : isAt byte s = some (false, s) := by
    rw [ranOut_eq hs]
    rfl
  have hrest := hk s hs
  unfold ReadsOn at hrest ⊢
  rw [bind_some hat]
  exact hrest

variable {ops} {elemType : Parse σ ILType} {elemType' : Decode σ ILType}

theorem params_failed (helem : OnFailed RanOut Anything false elemType) (left : Nat)
    (type : ILType) :
    OnFailed RanOut Anything (decide (left = 0)) (parseParams ops elemType left type) := by
  cases left with
  | zero => exact .pure trivial
  | succ left => exact helem.stop

theorem params_agrees (helem : Parses Anything elemType elemType')
    (hfailed : OnFailed RanOut Anything false elemType) (left : Nat) (type : ILType) :
    Parses Anything (parseParams ops elemType left type)
      (decodeParams ops elemType' left type) := by
  induction left generalizing type with
  | zero => exact .pure type
  | succ left ih =>
    apply helem.andThen
    · intro paramType
      exact asked (addParam_error ops) fun type => ih type
    · intro paramType _
      exact anything_failed (addParam_failed ops type paramType) fun type =>
        params_failed hfailed left type

/-! A sentinel sets another bit of the kind than the calling convention. -/

theorem callConv_addParam (ct : ClassTable) (synthetic : ClassId → ILType)
    (type paramType : ILType) :
    callConv (ilTypeAddParam ct synthetic type paramType) = callConv type := by
  cases type <;> rfl

theorem sentinelAllowed_addParam {type paramType a : ILType} {s s' : State σ}
    (h : addParam ops type paramType s = some (a, s')) :
    sentinelAllowed a = sentinelAllowed type := by
  cases h
  unfold sentinelAllowed
  rw [callConv_addParam]

/-- The rest of the parameters behind a sentinel, and the method. -/
theorem afterSentinel_failed (helem : OnFailed RanOut Anything false elemType) (left : Nat)
    (type : ILType) :
    OnFailed RanOut IsMethod (decide (left = 0) && sentinelAllowed type)
      (parseAfterSentinel ops elemType left type >>= finishMethod true) := by
  cases left with
  | zero =>
    have hpure : (pure type >>= finishMethod true : Parse σ (SigKind × ILType)) =
        finishMethod true type := pure_bind ..
    rw [parseAfterSentinel, hpure, finishMethod]
    cases hallowed : sentinelAllowed type with
    | false =>
      rw [if_pos ⟨rfl, Bool.false_ne_true⟩]
      exact .failure
    | true =>
      rw [if_neg fun h => h.2 rfl]
      exact .pure (.inr rfl)
  | succ left =>
    rw [parseAfterSentinel, bind_assoc]
    apply isAt_failed
    rw [if_neg Bool.false_ne_true, bind_assoc]
    exact helem.stop

theorem afterSentinel_agrees (helem : Parses Anything elemType elemType')
    (hfailed : OnFailed RanOut Anything false elemType) (left : Nat) (type : ILType) :
    Parses IsMethod (parseAfterSentinel ops elemType left type >>= finishMethod true)
      (decodeAfterSentinel ops elemType' left type) := by
  induction left generalizing type with
  | zero =>
    rw [parseAfterSentinel, pure_bind, decodeAfterSentinel, finishMethod]
    cases sentinelAllowed type with
    | false =>
      rw [if_pos ⟨rfl, Bool.false_ne_true⟩, if_neg Bool.false_ne_true]
      exact .malformed
    | true =>
      rw [if_neg fun h => h.2 rfl, if_pos rfl]
      exact .pure _
  | succ left ih =>
    rw [parseAfterSentinel, bind_assoc, decodeAfterSentinel]
    apply asked isAt_reader
    intro sentinel
    cases sentinel with
    | true =>
      rw [if_pos rfl, if_pos rfl]
      exact .malformed
    | false =>
      rw [if_neg Bool.false_ne_true, if_neg Bool.false_ne_true, bind_assoc]
      apply helem.andThen
      · intro paramType
        rw [bind_assoc]
        exact asked (addParam_error ops) fun type => ih type
      · intro paramType _ s hs
        have hadd : addParam ops type paramType s = some
            (ilTypeAddParam (ops.classes s.1) (ops.synthetic s.1) type paramType, s) := rfl
        have hrest : ReadsOn RanOut IsMethod _ (parseAfterSentinel ops elemType left _ >>= _) s :=
          afterSentinel_failed hfailed left
            (ilTypeAddParam (ops.classes s.1) (ops.synthetic s.1) type paramType) s hs
        rw [sentinelAllowed_addParam hadd] at hrest
        rw [bind_assoc]
        unfold ReadsOn at hrest ⊢
        rw [bind_some hadd]
        exact hrest

/-- The parameters of a method, and the method. -/
def parseRest (ops : ImageOps σ) (elemType : Parse σ ILType) (numParams : ILUInt32) (left : Nat)
    (type : ILType) : Parse σ (SigKind × ILType) :=
  parseMethodParams ops elemType numParams left type >>= fun sig => finishMethod sig.1 sig.2

theorem methodParams_failed (hfailed : OnFailed RanOut Anything false elemType)
    (numParams : ILUInt32) (left : Nat) (type : ILType) :
    OnFailed RanOut IsMethod (decide (left = 0)) (parseRest ops elemType numParams left type) := by
  cases left with
  | zero =>
    rw [parseRest, parseMethodParams, pure_bind]
    exact .pure (.inl rfl)
  | succ left =>
    rw [parseRest, parseMethodParams, bind_assoc]
    apply isAt_failed
    rw [if_neg Bool.false_ne_true, bind_assoc]
    exact hfailed.stop

theorem methodParams_agrees (helem : Parses Anything elemType elemType')
    (hfailed : OnFailed RanOut Anything false elemType) (numParams : ILUInt32) (left : Nat)
    (type : ILType) :
    Parses IsMethod (parseRest ops elemType numParams left type)
      (decodeMethodParams ops elemType' numParams left type) := by
  induction left generalizing type with
  | zero =>
    rw [parseRest, parseMethodParams, pure_bind]
    exact .pure _
  | succ left ih =>
    rw [parseRest, parseMethodParams, bind_assoc, decodeMethodParams]
    apply asked isAt_reader
    intro sentinel
    cases sentinel with
    | true =>
      rw [if_pos rfl, if_pos rfl]
      split_ifs
      · exact .malformed
      · rw [bind_assoc]
        apply asked skipByte_error
        intro _
        rw [bind_assoc]
        apply asked (addSentinel_error ops)
        intro type
        rw [bind_assoc]
        exact afterSentinel_agrees helem hfailed (left + 1) type
    | false =>
      rw [if_neg Bool.false_ne_true, if_neg Bool.false_ne_true, bind_assoc]
      apply helem.andThen
      · intro paramType
        rw [bind_assoc]
        exact asked (addParam_error ops) fun type => ih type
      · intro paramType _
        rw [bind_assoc]
        exact anything_failed (addParam_failed ops type paramType) fun type =>
          methodParams_failed hfailed numParams left type

end Params

/-! ### Element types -/

section ElemTypes

variable {σ : Type} {ops : ImageOps σ} {below : Option (Below σ)} {below' : Option (DecodeBelow σ)}

/-- The parsers below agree with the decoders below, and find nothing behind the end. -/
structure BelowAgrees (parsers : Below σ) (decoders : DecodeBelow σ) : Prop where
  elemType : ∀ categories,
    Parses Anything (parsers.elemType categories) (decoders.elemType categories)
  elemType_failed : ∀ categories, OnFailed RanOut Anything false (parsers.elemType categories)
  fnPtr : Parses Anything (parseFnPtr parsers.signature) decoders.fnPtr
  fnPtr_failed : OnFailed RanOut Anything false (parseFnPtr parsers.signature)

inductive BelowOk : Option (Below σ) → Option (DecodeBelow σ) → Prop where
  | none : BelowOk none none
  | some {parsers : Below σ} {decoders : DecodeBelow σ} (h : BelowAgrees parsers decoders) :
    BelowOk (some parsers) (some decoders)

theorem tokenInfo_error {token : ILToken} (t : σ × List ILUInt8) (a : ClassId) (s : State σ)
    (h : tokenInfo ops token (readerOf t) = some (a, s)) : s.2.error = false := by
  unfold tokenInfo at h
  split at h
  · cases h
    rfl
  · cases h

theorem classInfo_error {token : ILToken} (t : σ × List ILUInt8) (a : ClassId) (s : State σ)
    (h : classInfo ops token (readerOf t) = some (a, s)) : s.2.error = false := by
  unfold classInfo at h
  split at h
  · cases h
    rfl
  · obtain ⟨image, _, hinfo⟩ := Option.bind_eq_some_iff.mp h
    exact tokenInfo_error (image, t.2) a s hinfo

theorem classResolveSystem_error {name : String} (t : σ × List ILUInt8) (a : ClassId)
    (s : State σ) (h : classResolveSystem ops name (readerOf t) = some (a, s)) :
    s.2.error = false := by
  unfold classResolveSystem at h
  split at h
  · cases h
    rfl
  · cases h

theorem bytesLeft_error (t : σ × List ILUInt8) (a : Nat) (s : State σ)
    (h : bytesLeft (readerOf t) = some (a, s)) : s.2.error = false := by
  cases h
  rfl

/-- The null token names nothing. -/
theorem tokenInfo_failed : OnFailed RanOut Anything false (tokenInfo ops 0) := by
  intro s _
  change tokenInfo ops 0 s = none
  have hnull := ops.tokenInfo_null s.1
  unfold tokenInfo
  split
  · next heq =>
    rw [heq] at hnull
    cases hnull
  · rfl

/-- Behind a cut, the modifiers end with a type value of zero. -/
def ZeroNext (modified : List (Bool × ClassId) × ILUInt32) : Prop := modified.2 = 0

theorem modifiers_failed (categories : ILUInt32) (rounds : Nat) :
    OnFailed RanOut ZeroNext true (parseModifiers ops categories rounds 0) := by
  unfold parseModifiers
  rw [if_neg (by decide)]
  exact .pure rfl

theorem length_uncompressData (reader : ILMetaDataRead) :
    (ilMetaUncompressData reader).2.data.length ≤ reader.data.length - 1 := by
  obtain ⟨bytes, error⟩ := reader
  unfold ilMetaUncompressData
  cases bytes with
  | nil => exact Nat.zero_le _
  | cons ch data =>
    dsimp only
    split_ifs
    · exact Nat.le_refl _
    · rcases data with _ | ⟨ch2, data⟩ <;> simp [ILMetaDataRead.fail]
    · rcases data with _ | ⟨ch2, _ | ⟨ch3, _ | ⟨ch4, data⟩⟩⟩ <;>
        (simp [ILMetaDataRead.fail]; try omega)
    · rcases data with _ | ⟨ch2, _ | ⟨ch3, _ | ⟨ch4, _ | ⟨ch5, data⟩⟩⟩⟩ <;>
        (simp [ILMetaDataRead.fail]; try omega)
    · exact Nat.zero_le _

theorem length_uncompressToken (reader : ILMetaDataRead) :
    (ilMetaUncompressToken reader).2.data.length ≤ reader.data.length - 1 := by
  have hdata := length_uncompressData reader
  unfold ilMetaUncompressToken
  dsimp only
  split_ifs <;> exact hdata

theorem modifiers_agrees (categories : ILUInt32) (rounds : Nat) (value : ILUInt32) :
    Parses ZeroNext (parseModifiers ops categories rounds value)
      (decodeModifiers ops categories rounds value) := by
  induction rounds generalizing value with
  | zero =>
    unfold parseModifiers decodeModifiers
    refine .ite (.ite .malformed ?_) (.pure _)
    exact fun t => rfl
  | succ rounds ih =>
    unfold parseModifiers decodeModifiers
    refine .ite (.ite .malformed ?_) (.pure _)
    apply token_agrees.andThen
    · intro token
      apply asked tokenInfo_error
      intro info
      apply data_agrees.andThen
      · intro next
        apply (ih next).andThen
        · rintro ⟨modifiers, value'⟩
          exact .pure _
        · rintro ⟨modifiers, value'⟩ hzero
          exact .pure hzero
      · intro next hzero
        rw [hzero]
        apply (modifiers_failed categories rounds).bind
        rintro ⟨modifiers, value'⟩ hzero
        exact .pure hzero
    · intro token hzero
      rw [hzero]
      exact tokenInfo_failed.stop

theorem deeper_agrees {parse : Below σ → Parse σ ILType} {decode : DecodeBelow σ → Decode σ ILType}
    (h : BelowOk below below') (hk : ∀ parsers decoders, BelowAgrees parsers decoders →
      Parses Anything (parse parsers) (decode decoders)) :
    Parses Anything (deeper below parse) (decodeDeeper below' decode) := by
  cases h with
  | none => exact .malformed
  | some h => exact hk _ _ h

/-- A type of one type below. -/
theorem wrap_agrees {p : Parse σ ILType} {d : Decode σ ILType} (h : Parses Anything p d)
    (wrap : ILType → ILType) :
    Parses Anything (p >>= fun type => pure (wrap type))
      (d.andThen true fun type => .pure (wrap type)) :=
  h.andThen (fun type => .pure (wrap type)) fun _ _ => .pure trivial

theorem classToken_agrees {info : ILToken → Parse σ ClassId}
    (hinfo : ∀ token t a s, info token (readerOf t) = some (a, s) → s.2.error = false)
    (type : ClassId → ILType) :
    Parses Anything (parseClassToken info type) (decodeClassToken info type) := by
  apply token_agrees.andThen
  · intro token
    exact .ite .malformed (asked (hinfo token) fun info => .pure _)
  · intro token hzero
    rw [hzero, if_pos (Eq.refl 0)]
    exact .failure

theorem with_agrees {elemType : Parse σ ILType} {elemType' : Decode σ ILType}
    (h : Parses Anything elemType elemType') (hfailed : OnFailed RanOut Anything false elemType) :
    Parses Anything (parseWith ops elemType) (decodeWith ops elemType') := by
  apply h.andThen
  · intro mainType
    apply byte_agrees.andThen
    · intro count
      exact params_agrees h hfailed _ _
    · intro count hcount
      exact hcount.elim
  · intro mainType _
    exact byte_failed.stop

theorem elemCase_agrees (h : BelowOk below below') (categories value : ILUInt32) :
    Parses Anything (parseElemCase ops below categories value)
      (decodeElemCase ops below' categories value) := by
  unfold parseElemCase decodeElemCase
  cases elemCase value with
  | void => exact .ite (.pure _) .malformed
  | simple => exact .pure _
  | system name => exact asked classResolveSystem_error fun info => .pure _
  | ptr => exact deeper_agrees h fun parsers decoders h => wrap_agrees (h.elemType _) .ptr
  | byRef =>
    exact .ite (deeper_agrees h fun parsers decoders h => wrap_agrees (h.elemType _) .byRef)
      .malformed
  | valueType => exact classToken_agrees (fun token => tokenInfo_error) .valueType
  | classType => exact classToken_agrees (fun token => classInfo_error) .class
  | array =>
    exact deeper_agrees h fun parsers decoders h => (h.elemType 0).andThen arrayShape_agrees
      fun type _ => arrayShape_failed type
  | szArray =>
    exact deeper_agrees h fun parsers decoders h => wrap_agrees (h.elemType _) (ilTypeCreateArray 1)
  | typedByRef => exact .ite (.pure _) .malformed
  | fnPtr => exact deeper_agrees h fun parsers decoders h => h.fnPtr
  | pinned =>
    exact .ite (deeper_agrees h fun parsers decoders h => wrap_agrees (h.elemType _) .pinned)
      .malformed
  | «with» =>
    exact deeper_agrees h fun parsers decoders h => with_agrees (h.elemType _) (h.elemType_failed _)
  | mvar => exact byte_agrees.andThen (fun num => .pure _) fun num hnum => hnum.elim
  | var => exact byte_agrees.andThen (fun num => .pure _) fun num hnum => hnum.elim
  | other => exact .malformed

theorem bytesLeft_failed : OnFailed RanOut Anything true (bytesLeft : Parse σ Nat) := fun s hs =>
  ⟨_, s, rfl, hs, trivial⟩

/-- No type begins with a zero. -/
theorem elemCase_failed (categories : ILUInt32) :
    OnFailed RanOut Anything false (parseElemCase ops below categories 0) := .failure

theorem elemType_failed (categories : ILUInt32) :
    OnFailed RanOut Anything false (parseElemType ops below categories) := by
  apply zero_failed data_failed
  apply anything_failed bytesLeft_failed
  intro rounds
  apply (modifiers_failed categories rounds).bind
  rintro ⟨modifiers, value⟩ hzero
  rw [show value = 0 from hzero]
  exact (elemCase_failed categories).stop

theorem elemType_agrees (h : BelowOk below below') (categories : ILUInt32) :
    Parses Anything (parseElemType ops below categories)
      (decodeElemType ops below' categories) := by
  apply data_agrees.andThen
  · intro first
    apply asked bytesLeft_error
    intro rounds
    apply (modifiers_agrees categories rounds first).andThen
    · rintro ⟨modifiers, value⟩
      exact wrap_agrees (elemCase_agrees h categories value) (ilTypeAddModifiers modifiers)
    · rintro ⟨modifiers, value⟩ hzero
      rw [show value = 0 from hzero]
      exact (elemCase_failed categories).stop
  · intro first hzero
    rw [hzero]
    apply anything_failed bytesLeft_failed
    intro rounds
    apply (modifiers_failed categories rounds).bind
    rintro ⟨modifiers, value⟩ hzero
    rw [show value = 0 from hzero]
    exact (elemCase_failed categories).stop

end ElemTypes

/-! ### Signatures -/

section Signatures

variable {σ : Type} {ops : ImageOps σ} {below : Option (Below σ)} {below' : Option (DecodeBelow σ)}
  {sigKind : ILUInt32}

theorem toNat_eq_zero (value : ILUInt32) : value.toNat = 0 ↔ value = 0 :=
  ⟨fun h => BitVec.eq_of_toNat_eq h, fun h => h ▸ rfl⟩

theorem createMethod_error {numGenericParams : ILUInt32} {retType : ILType}
    (t : σ × List ILUInt8) (a : ILType) (s : State σ)
    (h : createMethod ops sigKind numGenericParams retType (readerOf t) = some (a, s)) :
    s.2.error = false := by
  cases h
  rfl

theorem createMethod_failed (numGenericParams : ILUInt32) (retType : ILType) :
    OnFailed RanOut Anything true (createMethod ops sigKind numGenericParams retType) :=
  fun s hs => ⟨_, s, rfl, hs, trivial⟩

theorem createProperty_error {propType : ILType} (t : σ × List ILUInt8) (a : ILType)
    (s : State σ) (h : createProperty ops propType (readerOf t) = some (a, s)) :
    s.2.error = false := by
  cases h
  rfl

theorem createProperty_failed (propType : ILType) :
    OnFailed RanOut Anything true (createProperty ops propType) := fun s hs =>
  ⟨_, s, rfl, hs, trivial⟩

theorem numGeneric_failed (sigKind : ILUInt32) :
    OnFailed RanOut Anything true (parseNumGeneric sigKind : Parse σ ILUInt32) := by
  unfold parseNumGeneric
  split_ifs
  · apply zero_failed data_failed
    rw [if_neg (by decide)]
    exact .pure trivial
  · exact .pure trivial

theorem numGeneric_agrees (sigKind : ILUInt32) :
    Parses Anything (parseNumGeneric sigKind : Parse σ ILUInt32) (decodeNumGeneric sigKind) := by
  unfold parseNumGeneric decodeNumGeneric
  refine .ite (data_agrees.andThen ?_ ?_) (.pure _)
  · intro numGenericParams
    exact .ite .malformed (.pure _)
  · intro numGenericParams hzero
    rw [hzero, if_neg (by decide)]
    exact .pure trivial

theorem retType_failed {parsers : Below σ} {decoders : DecodeBelow σ}
    (h : BelowAgrees parsers decoders) (sigKind : ILUInt32) :
    OnFailed RanOut Anything (isInstantiation sigKind) (parseRetType parsers sigKind) := by
  unfold parseRetType
  cases isInstantiation sigKind with
  | false => exact h.elemType_failed _
  | true => exact .pure trivial

theorem retType_agrees {parsers : Below σ} {decoders : DecodeBelow σ}
    (h : BelowAgrees parsers decoders) (sigKind : ILUInt32) :
    Parses Anything (parseRetType parsers sigKind) (decodeRetType decoders sigKind) :=
  .ite (.pure _) (h.elemType _)

theorem method_agrees (h : BelowOk below below') (sigKind numGenericParams numParams : ILUInt32) :
    Parses IsMethod (parseMethod ops below sigKind numGenericParams numParams)
      (decodeMethod ops below' sigKind numGenericParams numParams) := by
  cases h with
  | none => exact .malformed
  | @some parsers decoders h =>
    apply (retType_agrees h sigKind).andThen
    · intro retType
      apply asked createMethod_error
      intro type
      exact methodParams_agrees (h.elemType _) (h.elemType_failed _) numParams _ type
    · intro retType _
      apply anything_failed (createMethod_failed numGenericParams retType)
      intro type
      have hrest : OnFailed RanOut IsMethod _ (parseRest ops _ numParams numParams.toNat type) :=
        methodParams_failed (h.elemType_failed paramCategories) numParams _ type
      rwa [decide_eq_decide.mpr (toNat_eq_zero numParams)] at hrest

/-- A method whose number of parameters is missing. -/
theorem method_failed (h : BelowOk below below') (sigKind numGenericParams : ILUInt32) :
    OnFailed RanOut IsMethod (countsPass below' sigKind)
      (parseMethod ops below sigKind numGenericParams 0) := by
  unfold countsPass
  cases h with
  | none =>
    rw [Option.isSome_none, Bool.and_false]
    exact .failure
  | @some parsers decoders h =>
    rw [Option.isSome_some, Bool.and_true]
    have hret := retType_failed h sigKind
    cases hinst : isInstantiation sigKind with
    | false =>
      rw [hinst] at hret
      exact hret.stop
    | true =>
      rw [hinst] at hret
      apply anything_failed hret
      intro retType
      apply anything_failed (createMethod_failed numGenericParams retType)
      intro type
      exact methodParams_failed (h.elemType_failed _) 0 0 type

theorem property_failed (h : BelowOk below below') :
    OnFailed RanOut Anything false (parseProperty ops below 0) := by
  cases h with
  | none => exact .failure
  | some h => exact (h.elemType_failed _).stop

theorem property_agrees (h : BelowOk below below') (numParams : ILUInt32) :
    Parses (fun sig => sig.1 = .property) (parseProperty ops below numParams)
      (decodeProperty ops below' numParams) := by
  cases h with
  | none => exact .malformed
  | @some parsers decoders h =>
    apply (h.elemType 0).andThen
    · intro propType
      apply asked createProperty_error
      intro type
      apply (params_agrees (h.elemType _) (h.elemType_failed _) _ _).andThen
      · intro type
        exact .pure _
      · intro type _
        exact .pure rfl
    · intro propType _
      apply anything_failed (createProperty_failed propType)
      intro type
      have hrest : OnFailed RanOut Anything _ (parseParams ops _ numParams.toNat type) :=
        params_failed (h.elemType_failed paramCategories) _ type
      rw [decide_eq_decide.mpr (toNat_eq_zero numParams)] at hrest
      cases hnum : decide (numParams = 0) with
      | false =>
        rw [hnum] at hrest
        exact hrest.stop
      | true =>
        rw [hnum] at hrest
        exact anything_failed hrest fun type => .pure rfl

/-- Without its first byte, a signature is one without a return type. -/
theorem sigCase_failed (h : BelowOk below below') :
    OnFailed RanOut Anything false (parseSigCase ops below 0) := by
  change OnFailed RanOut Anything false (do
    let numGenericParams ← parseNumGeneric 0
    let numParams ← uncompressData
    if numParams > 0xFFFF then failure
    else parseMethod ops below 0 numGenericParams numParams)
  apply anything_failed (numGeneric_failed 0)
  intro numGenericParams
  apply zero_failed data_failed
  rw [if_neg (by decide)]
  exact fun s hs => method_failed h 0 numGenericParams s hs

/-- What is found behind a cut is a method when the first byte says so. -/
theorem sigCase_agrees (h : BelowOk below below') (sigKind : ILUInt32) :
    Parses (fun sig => IsMethod sig ↔ sigCase sigKind = .method) (parseSigCase ops below sigKind)
      (decodeSigCase ops below' sigKind) := by
  unfold parseSigCase decodeSigCase
  cases sigCase sigKind with
  | method =>
    apply (numGeneric_agrees sigKind).andThen
    · intro numGenericParams
      apply data_agrees.andThen
      · intro numParams
        exact .ite .malformed
          ((method_agrees h sigKind numGenericParams numParams).mono fun sig hsig =>
            iff_of_true hsig rfl)
      · intro numParams hzero
        rw [hzero, if_neg (by decide)]
        exact (method_failed h sigKind numGenericParams).mono fun sig hsig => iff_of_true hsig rfl
    · intro numGenericParams _
      apply zero_failed data_failed
      rw [if_neg (by decide)]
      exact (method_failed h sigKind numGenericParams).mono fun sig hsig => iff_of_true hsig rfl
  | field =>
    cases h with
    | none => exact .malformed
    | some h =>
      apply (h.elemType _).andThen
      · intro type
        exact .pure _
      · intro type _
        exact .pure (iff_of_false (by simp [IsMethod]) nofun)
  | property =>
    apply data_agrees.andThen
    · intro numParams
      refine .ite .malformed ((property_agrees h numParams).mono fun sig hsig => ?_)
      exact iff_of_false (by simp [IsMethod, hsig]) nofun
    · intro numParams hzero
      rw [hzero, if_neg (by decide)]
      exact fun s hs => property_failed h s hs
  | other => exact .malformed

theorem signature_agrees (h : BelowOk below below') :
    Parses Anything (parseSignature ops below) (decodeSignature ops below') := by
  apply data_agrees.andThen
  · intro sigKind
    exact (sigCase_agrees h sigKind).mono fun _ _ => trivial
  · intro sigKind hzero
    rw [hzero]
    exact sigCase_failed h

theorem fnPtr_failed (h : BelowOk below below') :
    OnFailed RanOut Anything false (parseFnPtr (parseSignature ops below)) := by
  unfold parseFnPtr parseSignature
  rw [bind_assoc]
  exact zero_failed data_failed (sigCase_failed h).stop

theorem fnPtr_agrees (h : BelowOk below below') :
    Parses Anything (parseFnPtr (parseSignature ops below)) (decodeFnPtr ops below') := by
  unfold parseFnPtr parseSignature decodeFnPtr
  rw [bind_assoc]
  apply data_agrees.andThen
  · intro sigKind
    apply (sigCase_agrees h sigKind).andThen
    · rintro ⟨kind, type⟩
      exact .ite (.pure type) .malformed
    · rintro ⟨kind, type⟩ hkind
      have hmethod : kind = .methodDef ∨ kind = .methodRef ↔ sigCase sigKind = .method := hkind
      by_cases hcase : sigCase sigKind = .method
      · rw [decide_eq_true hcase]
        dsimp only
        rw [if_pos (hmethod.mpr hcase)]
        exact .pure trivial
      · rw [decide_eq_false hcase]
        dsimp only
        rw [if_neg fun hkinds => hcase (hmethod.mp hkinds)]
        exact .failure
  · intro sigKind hzero
    rw [hzero]
    exact (sigCase_failed h).stop

theorem parsers_agree (ops : ImageOps σ) (depth : Nat) :
    BelowAgrees (parsers ops depth) (decoders ops depth) := by
  induction depth with
  | zero =>
    exact ⟨elemType_agrees .none, elemType_failed, fnPtr_agrees .none, fnPtr_failed .none⟩
  | succ depth ih =>
    exact ⟨elemType_agrees (.some ih), elemType_failed, fnPtr_agrees (.some ih),
      fnPtr_failed (.some ih)⟩

end Signatures

/-! ### Entry points -/

section Entries

variable {σ : Type} (ops : ImageOps σ) (image : σ) (blob : List ILUInt8)

def decodeField : Decode σ ILType :=
  decodeData.andThen false fun kind =>
    if kind ≠ 0x06 then .malformed
    else (decoders ops ilTypeRecursionDepth).elemType categoryAll

/-- Only the last of the local variables may break off and pass. -/
def decodeLocals : Nat → List ILType → Decode σ (List ILType)
  | 0, locals => .pure locals
  | left + 1, locals => (asks skipPinned).andThen true fun isPinned =>
    ((decoders ops ilTypeRecursionDepth).elemType localCategories).andThen (decide (left = 0))
      fun type => (asks (addLocal ops isPinned locals type)).andThen true fun locals =>
        decodeLocals left locals

def decodeLocalVars : Decode σ (List ILType) :=
  decodeData.andThen false fun kind =>
    if kind ≠ 0x07 then .malformed
    else decodeData.andThen false fun count =>
      if count > 0xFFFF then .malformed else decodeLocals ops count.toNat []

/-- The entry points. A method specification is read as a method definition. -/
inductive SigEntry where
  | methodDef
  | methodRef
  | standAloneMethod
  | field
  | property
  | typeSpec
  | localVars
deriving DecidableEq

/-- A valid type is returned. -/
def SigEntry.accepts : SigEntry → Bool
  | .methodDef => (ilTypeFromMethodDefSig ops image blob).isSome
  | .methodRef => (ilTypeFromMethodRefSig ops image blob).isSome
  | .standAloneMethod => (ilTypeFromStandAloneMethodSig ops image blob).isSome
  | .field => (ilTypeFromFieldSig ops image blob).isSome
  | .property => (ilTypeFromPropertySig ops image blob).isSome
  | .typeSpec => (ilTypeFromTypeSpec ops image blob).isSome
  | .localVars => (ilTypeFromLocalVarSig ops image (some blob)).isSome

/-- Where an outcome breaks off. -/
def cutOf {α T : Type} : Outcome α T → Option Bool
  | .cut passes => some passes
  | _ => none

/-- Whether the encoding needs a byte beyond the blob, and if so, whether what is missing passes
for zeros. -/
def SigEntry.breaksOff : SigEntry → Option Bool
  | .field => cutOf (decodeField ops (image, blob))
  | .typeSpec => cutOf ((decoders ops ilTypeRecursionDepth).elemType (categoryCMod ||| categoryVoid)
      (image, blob))
  | .localVars => cutOf (decodeLocalVars ops (image, blob))
  | _ => cutOf (decodeSignature ops (some (decoders ops (ilTypeRecursionDepth - 1))) (image, blob))

/-- A truncated blob is not accepted. -/
def RefusesTruncated (entry : SigEntry) : Prop :=
  entry.breaksOff ops image blob ≠ none → entry.accepts ops image blob = false

variable {ops}

theorem skipPinned_error (t : σ × List ILUInt8) (a : Bool) (s : State σ)
    (h : skipPinned (readerOf t) = some (a, s)) : s.2.error = false := by
  cases h
  rfl

theorem addLocal_error {isPinned : Bool} {locals : List ILType} {type : ILType}
    (t : σ × List ILUInt8) (a : List ILType) (s : State σ)
    (h : addLocal ops isPinned locals type (readerOf t) = some (a, s)) : s.2.error = false := by
  cases h
  rfl

/-- Whole input has no error. -/
theorem readerError_agrees {β : Type} {zero : β → Prop} {k : Bool → Parse σ β} {d : Decode σ β}
    (h : Parses zero (k false) d) : Parses zero (readerError >>= k) d := h

/-- Where the error is tested, nothing follows a cut. -/
theorem readerError_failed {β : Type} {zero : β → Prop} {k : Bool → Parse σ β}
    (h : k true = failure) : OnFailed RanOut zero false (readerError >>= k) := by
  intro s hs
  have herror : readerError s = some (true, s) := by
    rw [ranOut_eq hs]
    rfl
  unfold ReadsOn
  rw [if_neg Bool.false_ne_true, bind_some herror, h]
  rfl

theorem field_agrees : Parses Anything (parseField ops) (decodeField ops) := by
  apply data_agrees.andThen
  · intro kind
    exact .ite .malformed ((parsers_agree ops ilTypeRecursionDepth).elemType categoryAll)
  · intro kind hzero
    rw [hzero, if_pos (by decide)]
    exact .failure

theorem locals_failed (left : Nat) (locals : List ILType) :
    OnFailed RanOut Anything (decide (left = 0)) (parseLocals ops left locals) := by
  cases left with
  | zero => exact .pure trivial
  | succ left =>
    apply anything_failed
    · intro s hs
      rw [ranOut_eq hs]
      exact ⟨false, (s.1, .fail), rfl, rfl, trivial⟩
    · intro isPinned
      exact ((parsers_agree ops ilTypeRecursionDepth).elemType_failed localCategories).stop

theorem locals_agree (left : Nat) (locals : List ILType) :
    Parses Anything (parseLocals ops left locals) (decodeLocals ops left locals) := by
  induction left generalizing locals with
  | zero => exact .pure locals
  | succ left ih =>
    apply asked skipPinned_error
    intro isPinned
    apply ((parsers_agree ops ilTypeRecursionDepth).elemType localCategories).andThen
    · intro type
      exact asked addLocal_error fun locals => ih locals
    · intro type _
      apply anything_failed
      · exact fun s hs => ⟨_, s, rfl, hs, trivial⟩
      · intro locals
        exact locals_failed left locals

theorem localVars_agree : Parses Anything (parseLocalVars ops) (decodeLocalVars ops) := by
  apply data_agrees.andThen
  · intro kind
    apply readerError_agrees
    by_cases hkind : kind ≠ 0x07
    · rw [if_pos (.inl hkind), if_pos hkind]
      exact .malformed
    · rw [if_neg fun h => h.elim hkind Bool.false_ne_true, if_neg hkind]
      apply data_agrees.andThen
      · intro count
        apply readerError_agrees
        by_cases hcount : count > 0xFFFF
        · rw [if_pos (.inr hcount), if_pos hcount]
          exact .malformed
        · rw [if_neg fun h => h.elim Bool.false_ne_true hcount, if_neg hcount]
          exact locals_agree _ _
      · intro count _
        exact readerError_failed (if_pos (.inl rfl))
  · intro kind _
    exact readerError_failed (if_pos (.inr rfl))

/-- Without a test of the error, a cut is accepted when it passes. -/
theorem accepts_cut {α : Type} {p : Parse σ α} {d : Decode σ α} (h : Parses Anything p d)
    {passes : Bool} (hcut : cutOf (d (image, blob)) = some passes) :
    ((p (image, ⟨blob, false⟩)).map (·.1)).isSome = passes := by
  have hp := h (image, blob)
  cases hd : d (image, blob) with
  | whole a rest => rw [hd] at hcut; cases hcut
  | malformed => rw [hd] at hcut; cases hcut
  | cut first =>
    rw [hd] at hcut hp
    cases hcut
    rw [Option.isSome_map]
    cases passes with
    | false => exact congrArg Option.isSome (show p (image, ⟨blob, false⟩) = none from hp)
    | true =>
      obtain ⟨a, s, hsome, _⟩ := hp
      exact congrArg Option.isSome hsome

theorem unlessError_cut {α : Type} {p : Parse σ α} {d : Decode σ α} (h : Parses Anything p d)
    (hcut : cutOf (d (image, blob)) ≠ none) : unlessError (p (image, ⟨blob, false⟩)) = none := by
  have hp := h (image, blob)
  cases hd : d (image, blob) with
  | whole a rest => exact absurd (by rw [hd]; rfl) hcut
  | malformed => exact absurd (by rw [hd]; rfl) hcut
  | cut passes =>
    rw [hd] at hp
    cases passes with
    | false =>
      have hnone : p (image, ⟨blob, false⟩) = none := hp
      rw [hnone]
      rfl
    | true =>
      obtain ⟨a, s, hsome, hs, _⟩ := hp
      have herror : s.2.error = true := congrArg ILMetaDataRead.error hs
      have hsome' : p (image, ⟨blob, false⟩) = some (a, s) := hsome
      rw [hsome', unlessError, Option.bind_some]
      exact if_pos herror

variable (ops)

/-- The entry points that do not test the error when the type has been parsed. -/
def SigEntry.trustsReader (entry : SigEntry) : Bool :=
  entry = .field ∨ entry = .localVars

theorem refusesTruncated_of_cut (entry : SigEntry)
    (h : ∀ passes, entry.breaksOff ops image blob = some passes →
      entry.accepts ops image blob = passes) :
    RefusesTruncated ops image blob entry ↔ entry.breaksOff ops image blob ≠ some true := by
  unfold RefusesTruncated
  cases hcut : entry.breaksOff ops image blob with
  | none => exact iff_of_true (fun hne => absurd rfl hne) nofun
  | some passes =>
    rw [h passes hcut]
    cases passes with
    | false => exact iff_of_true (fun _ => rfl) (by decide)
    | true => exact iff_of_false (fun hall => Bool.noConfusion (hall nofun)) (not_not.mpr rfl)

/-- A truncated blob is refused, but for a field and for local variables where what is missing of
the last type passes for zeros: the counts and bounds of an array shape, or the counts of an
instantiation that a function pointer points to. -/
theorem refusesTruncated_iff (entry : SigEntry) :
    RefusesTruncated ops image blob entry ↔
      ¬ (entry.trustsReader ∧ entry.breaksOff ops image blob = some true) := by
  have hparsers := parsers_agree ops ilTypeRecursionDepth
  have hsig : cutOf (decodeSignature ops (some (decoders ops (ilTypeRecursionDepth - 1)))
      (image, blob)) ≠ none → parseSigBlob ops image blob = none := by
    intro hcut
    exact unlessError_cut image blob
      (signature_agrees (.some (parsers_agree ops (ilTypeRecursionDepth - 1)))) hcut
  cases entry with
  | field =>
    have hiff := refusesTruncated_of_cut ops image blob .field fun passes =>
      accepts_cut image blob field_agrees
    exact hiff.trans ⟨fun hne h => hne h.2, fun h hcut => h ⟨rfl, hcut⟩⟩
  | localVars =>
    have hiff := refusesTruncated_of_cut ops image blob .localVars fun passes =>
      accepts_cut image blob localVars_agree
    exact hiff.trans ⟨fun hne h => hne h.2, fun h hcut => h ⟨rfl, hcut⟩⟩
  | typeSpec =>
    refine iff_of_true (fun hcut => ?_) fun h => Bool.false_ne_true h.1
    exact congrArg Option.isSome (unlessError_cut image blob (hparsers.elemType _) hcut)
  | methodDef | methodRef | standAloneMethod | property =>
    refine iff_of_true (fun hcut => ?_) fun h => Bool.false_ne_true h.1
    have hnone := hsig hcut
    exact congrArg (fun sig => (Option.bind sig _).isSome) hnone

/-- An image without classes. -/
def noImage : ImageOps Unit where
  tokenInfo image _ := (none, image)
  tokenInfo_null _ := rfl
  loadForwardTypeDef _ _ := none
  classResolveSystem image _ := (none, image)
  classes _ := noClasses
  synthetic _ _ := .invalid

/-- A field of an array of one dimension, broken off behind the rank. -/
theorem not_refusesTruncated :
    ¬ RefusesTruncated noImage () [0x06, 0x14, 0x08, 0x01] .field := by
  intro h
  have haccepts : SigEntry.accepts noImage () [0x06, 0x14, 0x08, 0x01] .field = true := by rfl
  have hrefused := h (by decide)
  rw [haccepts] at hrefused
  cases hrefused

end Entries

end Pnet.Image.SigParse
