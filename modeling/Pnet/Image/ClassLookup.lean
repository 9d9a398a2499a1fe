import Mathlib
import Pnet.Image.ClassHash
import Pnet.Support.Utf

/-! Which requests for a class are answered with the class that is asked for. -/
namespace Pnet.Image.ClassHash
open Pnet.Support

variable {N P Im : Type}

def IsNamed (info : ILClassName N P Im) (name : List ILUInt8) (nameSpace : Option (List ILUInt8)) :
    Prop :=
  info.name.chars = name ∧ info.nameSpace.map CString.chars = nameSpace

/-- The name is right, and a namespace is asked for that the record does not have. -/
def LacksNamespace (info : ILClassName N P Im) (name : List ILUInt8)
    (nameSpace : Option (List ILUInt8)) : Prop :=
  info.name.chars = name ∧ info.nameSpace = none ∧ nameSpace ≠ none

/-- Another name, which the comparison with a counted text takes for the right one. -/
def SeemsNamed (info : ILClassName N P Im) (name : List ILUInt8)
    (nameSpace : Option (List ILUInt8)) : Prop :=
  ¬ IsNamed info name nameSpace ∧ (info.name.chars = name ∨ CutText info.name name) ∧
    (info.nameSpace = none ∨ ∃ str text, info.nameSpace = some str ∧ nameSpace = some text ∧
      (str.chars = text ∨ CutText str text))

section Text

variable {info : ILClassName N P Im}

theorem matchText_iff (key : ILClassKeyInfo ILUInt8 N P Im) :
    matchText compareText info key = true ↔
      IsNamed info key.name key.nameSpace ∨ SeemsNamed info key.name key.nameSpace := by
  have hloose : matchText compareText info key = true ↔
      (info.name.chars = key.name ∨ CutText info.name key.name) ∧
        (info.nameSpace = none ∨ ∃ str text, info.nameSpace = some str ∧
          key.nameSpace = some text ∧ (str.chars = text ∨ CutText str text)) := by
    unfold matchText
    cases hinfo : info.nameSpace with
    | none => simp [compareText_iff]
    | some str =>
      cases hkey : key.nameSpace with
      | none => simp
      | some text => simp [compareText_iff, and_comm]
  rw [hloose]
  by_cases hnamed : IsNamed info key.name key.nameSpace
  · refine iff_of_true ⟨.inl hnamed.1, ?_⟩ (.inl hnamed)
    cases hinfo : info.nameSpace with
    | none => exact .inl rfl
    | some str =>
      have hspace := hnamed.2
      rw [hinfo] at hspace
      exact .inr ⟨str, str.chars, rfl, hspace.symm, .inl rfl⟩
  · simp [SeemsNamed, hnamed]

theorem matchText_chars_iff (name : CString) (nameSpace : Option CString)
    {key : ILClassKeyInfo ILUInt8 N P Im} (hname : key.name = name.chars)
    (hspace : key.nameSpace = nameSpace.map CString.chars) :
    matchText compareText info key = true ↔
      IsNamed info name.chars (nameSpace.map CString.chars) ∨
        LacksNamespace info name.chars (nameSpace.map CString.chars) := by
  unfold matchText IsNamed LacksNamespace
  rw [hname, hspace]
  cases hinfo : info.nameSpace with
  | none =>
    cases nameSpace with
    | none => simp [compareText_chars_iff]
    | some text => simp [compareText_chars_iff]
  | some str =>
    cases nameSpace with
    | none => simp
    | some text => simp [compareText_chars_iff, and_comm]

theorem not_lacksNamespace {name : List ILUInt8} {nameSpace : Option (List ILUInt8)}
    (h : IsNamed info name nameSpace) : ¬ LacksNamespace info name nameSpace := by
  rintro ⟨_, hnone, hsome⟩
  rw [← h.2, hnone] at hsome
  exact hsome rfl

end Text

/-! ### Scopes -/

variable [DecidableEq N] [DecidableEq P] [DecidableEq Im] (names : ClassNames N P Im)

/-- A type that the image of a module exports out of one of its files. -/
def Exported (scope : P) (info : ILClassName N P Im) : Prop :=
  names.token scope &&& ilMetaTokenMask = ilMetaTokenModule ∧
    ∃ file, info.scope = some file ∧ names.token file &&& ilMetaTokenMask = ilMetaTokenFile ∧
      names.imageOf scope = names.imageOf file

def InScope (scope : P) (info : ILClassName N P Im) : Prop :=
  info.scope = some scope ∨ Exported names scope info

/-- A class that is defined in some module and is not nested. -/
def IsGlobal (info : ILClassName N P Im) : Prop :=
  info.scopeName = none ∧
    ∃ scope, info.scope = some scope ∧ names.token scope &&& ilMetaTokenMask = ilMetaTokenModule

theorem classHashMatch_scope_iff (info : ILClassName N P Im) (scope : P) (name : List ILUInt8)
    (nameSpace : Option (List ILUInt8)) :
    classHashMatch names info ⟨name, nameSpace, some scope, none, none, false, false⟩ = true ↔
      matchText compareText info
        (⟨name, nameSpace, some scope, none, none, false, false⟩ :
          ILClassKeyInfo ILUInt8 N P Im) = true ∧ InScope names scope info := by
  unfold classHashMatch matchModule matchScope matchImage matchGlobal InScope Exported
  cases hinfo : info.scope with
  | none => simp
  | some file => simp [or_comm, eq_comm (a := scope) (b := file), and_assoc]

theorem classHashMatch_global_iff (info : ILClassName N P Im) (name : List ILUInt8)
    (nameSpace : Option (List ILUInt8)) :
    classHashMatch names info ⟨name, nameSpace, none, none, none, true, false⟩ = true ↔
      matchText compareText info
        (⟨name, nameSpace, none, none, none, true, false⟩ : ILClassKeyInfo ILUInt8 N P Im) = true ∧
        IsGlobal names info := by
  unfold classHashMatch matchModule matchScope matchImage matchGlobal IsGlobal
  cases hinfo : info.scope with
  | none => simp
  | some file => simp

/-! ### Lookups of bytes -/

/-- The bucket of the hash table that a request leads to. -/
def bucketOf (t : ILHashTable N) (name : List ILUInt8) (nameSpace : Option (List ILUInt8)) :
    List N :=
  t.bucketElems (t.bucket (hashName name nameSpace).toNat)

variable {t : ILHashTable N} {chains : Nat → List EntryRef}

omit [DecidableEq N] [DecidableEq P] [DecidableEq Im] in
theorem classHashCompute_of_isNamed {info : ILClassName N P Im} {name : List ILUInt8}
    {nameSpace : Option (List ILUInt8)} (h : IsNamed info name nameSpace) :
    classHashCompute info = (hashName name nameSpace).toNat := by
  rw [classHashCompute, h.1, h.2]

theorem ilClassLookup_sound_iff (h : t.Inv (fun n => classHashCompute (names.info n)) chains)
    (scope : P) (name : CString) (nameSpace : Option CString) :
    LookupSound (ilClassLookup names t scope name nameSpace) t.contents
        (fun n => IsNamed (names.info n) name.chars (nameSpace.map CString.chars) ∧
          InScope names scope (names.info n)) ↔
      NeverBefore (bucketOf t name.chars (nameSpace.map CString.chars))
        (fun n => LacksNamespace (names.info n) name.chars (nameSpace.map CString.chars) ∧
          InScope names scope (names.info n))
        (fun n => IsNamed (names.info n) name.chars (nameSpace.map CString.chars) ∧
          InScope names scope (names.info n)) := by
  unfold ilClassLookup classHashFind bucketOf
  apply lookupSound_iff h
  · intro n
    rw [classHashMatch_scope_iff, matchText_chars_iff name nameSpace rfl rfl, or_and_right]
  · exact fun n hgood hbad => not_lacksNamespace hgood.1 hbad.1
  · exact fun n hgood => classHashCompute_of_isNamed hgood.1

theorem ilClassLookupLen_sound_iff (h : t.Inv (fun n => classHashCompute (names.info n)) chains)
    (scope : P) (name : List ILUInt8) (nameSpace : Option (List ILUInt8)) :
    LookupSound (ilClassLookupLen names t scope name nameSpace) t.contents
        (fun n => IsNamed (names.info n) name nameSpace ∧ InScope names scope (names.info n)) ↔
      NeverBefore (bucketOf t name nameSpace)
        (fun n => SeemsNamed (names.info n) name nameSpace ∧ InScope names scope (names.info n))
        (fun n => IsNamed (names.info n) name nameSpace ∧ InScope names scope (names.info n)) := by
  unfold ilClassLookupLen classHashFind bucketOf
  apply lookupSound_iff h
  · intro n
    rw [classHashMatch_scope_iff, matchText_iff, or_and_right]
  · exact fun n hgood hbad => hbad.1.1 hgood.1
  · exact fun n hgood => classHashCompute_of_isNamed hgood.1

theorem ilClassLookupGlobal_sound_iff (h : t.Inv (fun n => classHashCompute (names.info n)) chains)
    (name : CString) (nameSpace : Option CString) :
    LookupSound (ilClassLookupGlobal names t name nameSpace) t.contents
        (fun n => IsNamed (names.info n) name.chars (nameSpace.map CString.chars) ∧
          IsGlobal names (names.info n)) ↔
      NeverBefore (bucketOf t name.chars (nameSpace.map CString.chars))
        (fun n => LacksNamespace (names.info n) name.chars (nameSpace.map CString.chars) ∧
          IsGlobal names (names.info n))
        (fun n => IsNamed (names.info n) name.chars (nameSpace.map CString.chars) ∧
          IsGlobal names (names.info n)) := by
  unfold ilClassLookupGlobal classHashFind bucketOf
  apply lookupSound_iff h
  · intro n
    rw [classHashMatch_global_iff, matchText_chars_iff name nameSpace rfl rfl, or_and_right]
  · exact fun n hgood hbad => not_lacksNamespace hgood.1 hbad.1
  · exact fun n hgood => classHashCompute_of_isNamed hgood.1

/-! ### Lookups of UTF-16 -/

def codePoint (ch : Char) : ILUInt64 := BitVec.ofNat 64 ch.toNat

def utf8 (text : List Char) : List ILUInt8 := text.flatMap fun ch => ilUTF8WriteChar (codePoint ch)

def utf16 (text : List Char) : List ILUInt16 :=
  text.flatMap fun ch => ilUTF16WriteChar (codePoint ch)

def IsAscii (text : List Char) : Prop := ∀ ch ∈ text, 0 < ch.toNat ∧ ch.toNat < 0x80

theorem toNat_char_lt (ch : Char) : ch.toNat < 0x110000 := by
  rcases ch.valid with hlow | ⟨_, hhigh⟩
  · have hlt : ch.toNat < 0xD800 := hlow
    omega
  · exact hhigh

theorem toNat_codePoint (ch : Char) : (codePoint ch).toNat = ch.toNat := by
  have hlt := toNat_char_lt ch
  rw [codePoint, BitVec.toNat_ofNat, Nat.mod_eq_of_lt (by omega)]

theorem zero_notMem_utf8 (text : List Char) : 0 ∉ utf8 text := by
  intro hmem
  obtain ⟨ch, _, hzero⟩ := List.mem_flatMap.1 hmem
  have hlt := toNat_char_lt ch
  exact zero_notMem_ilUTF8WriteChar (by rw [toNat_codePoint]; omega) 0 hzero rfl

/-- The text as a `const char *`. -/
def utf8Chars (text : List Char) : CString := .ofList (utf8 text) (zero_notMem_utf8 text)

theorem ilUTF8WriteChar_ascii {ch : Char} (hpos : 0 < ch.toNat) (hlt : ch.toNat < 0x80) :
    ilUTF8WriteChar (codePoint ch) = [BitVec.ofNat 8 ch.toNat] := by
  have hzero : codePoint ch ≠ 0 := by
    intro h
    have hval := congrArg BitVec.toNat h
    rw [toNat_codePoint] at hval
    exact absurd hval hpos.ne'
  have hsmall : codePoint ch < 0x80 := by
    rw [BitVec.lt_def, toNat_codePoint]
    exact hlt
  unfold ilUTF8WriteChar
  rw [if_neg hzero, if_pos hsmall]
  congr 1
  apply BitVec.eq_of_toNat_eq
  rw [BitVec.toNat_setWidth, toNat_codePoint, BitVec.toNat_ofNat]

theorem ilUTF16WriteChar_ascii {ch : Char} (hlt : ch.toNat < 0x80) :
    ilUTF16WriteChar (codePoint ch) = [BitVec.ofNat 16 ch.toNat] := by
  have hsmall : codePoint ch < 0x10000 := by
    rw [BitVec.lt_def, toNat_codePoint]
    exact hlt.trans (by decide)
  unfold ilUTF16WriteChar
  rw [if_pos hsmall]
  congr 1
  apply BitVec.eq_of_toNat_eq
  rw [BitVec.toNat_setWidth, toNat_codePoint, BitVec.toNat_ofNat]

/-- Only a character of ASCII takes as many bytes as units. -/
theorem charLength_lt {ch : Char} (hascii : ¬ (0 < ch.toNat ∧ ch.toNat < 0x80)) :
    (ilUTF16WriteChar (codePoint ch)).length < (ilUTF8WriteChar (codePoint ch)).length := by
  have hval := toNat_codePoint ch
  have hlt := toNat_char_lt ch
  have h11 : ((1 : ILUInt64) <<< 11).toNat = 2 ^ 11 := rfl
  have h16 : ((1 : ILUInt64) <<< 16).toNat = 2 ^ 16 := rfl
  have h21 : ((1 : ILUInt64) <<< 21).toNat = 2 ^ 21 := rfl
  have h10000 : (0x10000 : ILUInt64).toNat = 2 ^ 16 := rfl
  rw [length_ilUTF8WriteChar, length_ilUTF16WriteChar]
  unfold utf8CharLength utf16CharLength
  simp only [BitVec.lt_def, hval, h11, h16, h21, h10000]
  by_cases hzero : codePoint ch = 0
  · have hnat : ch.toNat = 0 := by
      rw [← hval, hzero]
      rfl
    simp [hzero, hnat]
  · have hpos : ch.toNat ≠ 0 := fun h => hzero (BitVec.eq_of_toNat_eq (by rw [hval, h]; rfl))
    have h80 : ¬ ch.toNat < (0x80 : ILUInt64).toNat := fun h => hascii ⟨by omega, h⟩
    rw [if_neg hzero, if_neg h80]
    split_ifs <;> omega

theorem utf8_cons (ch : Char) (text : List Char) :
    utf8 (ch :: text) = ilUTF8WriteChar (codePoint ch) ++ utf8 text := rfl

theorem utf16_cons (ch : Char) (text : List Char) :
    utf16 (ch :: text) = ilUTF16WriteChar (codePoint ch) ++ utf16 text := rfl

theorem utf16_eq_of_isAscii {text : List Char} (hascii : IsAscii text) :
    utf16 text = (utf8 text).map (BitVec.setWidth 16) := by
  induction text with
  | nil => rfl
  | cons ch text ih =>
    obtain ⟨hpos, hlt⟩ := hascii ch List.mem_cons_self
    rw [utf16_cons, utf8_cons, ilUTF8WriteChar_ascii hpos hlt, ilUTF16WriteChar_ascii hlt,
      ih fun ch' hch' => hascii ch' (List.mem_cons_of_mem _ hch'), List.map_append,
      List.map_singleton]
    congr 2
    apply BitVec.eq_of_toNat_eq
    rw [BitVec.toNat_setWidth, BitVec.toNat_ofNat, BitVec.toNat_ofNat]
    omega

theorem length_utf16_le (text : List Char) : (utf16 text).length ≤ (utf8 text).length ∧
    ((utf16 text).length = (utf8 text).length → IsAscii text) := by
  induction text with
  | nil => exact ⟨le_rfl, fun _ ch hch => absurd hch List.not_mem_nil⟩
  | cons ch text ih =>
    rw [utf16_cons, utf8_cons, List.length_append, List.length_append]
    by_cases hch : 0 < ch.toNat ∧ ch.toNat < 0x80
    · rw [ilUTF8WriteChar_ascii hch.1 hch.2, ilUTF16WriteChar_ascii hch.2]
      refine ⟨Nat.add_le_add_left ih.1 _, fun heq => ?_⟩
      exact List.forall_mem_cons.2 ⟨hch, ih.2 (Nat.add_left_cancel heq)⟩
    · have hlt := charLength_lt hch
      exact ⟨by omega, fun heq => by omega⟩

/-- The bytes of a string are the units of a text, one by one. -/
def LatinText (str : CString) (text : List ILUInt16) : Prop :=
  str.chars.map (BitVec.setWidth 16) = text

theorem compareUnicode_iff (str : List ILUInt8) (text : List ILUInt16) :
    compareUnicode false str text = true ↔ str.map (BitVec.setWidth 16) = text := by
  induction str generalizing text with
  | nil => cases text <;> simp [compareUnicode]
  | cons ch str ih =>
    cases text with
    | nil => simp [compareUnicode]
    | cons ch2 text =>
      by_cases hch : ch.setWidth 16 = ch2
      · simp [compareUnicode, hch, ih]
      · simp [compareUnicode, hch]

/-- The comparison with UTF-16 units passes. -/
def LatinNamed (info : ILClassName N P Im) (name : List ILUInt16)
    (nameSpace : Option (List ILUInt16)) : Prop :=
  LatinText info.name name ∧ (info.nameSpace = none ∨ ∃ str text, info.nameSpace = some str ∧
    nameSpace = some text ∧ LatinText str text)

theorem unicodeMatch_iff (info : ILClassName N P Im) (scope : P) (name : List ILUInt16)
    (nameSpace : Option (List ILUInt16)) :
    unicodeMatch names info ⟨name, nameSpace, some scope, none, none, false, false⟩ = true ↔
      LatinNamed info name nameSpace ∧ info.scope = some scope := by
  unfold unicodeMatch matchText matchScope matchImage matchGlobal LatinNamed LatinText
  cases hinfo : info.nameSpace with
  | none => simp [compareUnicode_iff, eq_comm (a := some scope)]
  | some str =>
    cases nameSpace with
    | none => simp
    | some text =>
      simp [compareUnicode_iff, eq_comm (a := some scope), eq_comm (a := text), and_comm]

theorem hashUnicode_map (start : ILUInt64) (str : List ILUInt8) :
    hashUnicode start (str.map (BitVec.setWidth 16)) = hashIgnoreCase start str := by
  unfold hashUnicode hashIgnoreCase hashChars
  rw [List.foldl_map]
  rfl

/-- A request in ASCII characters. -/
def AsciiRequest (name : List Char) (nameSpace : Option (List Char)) : Prop :=
  IsAscii name ∧ ∀ text, nameSpace = some text → IsAscii text

omit [DecidableEq N] [DecidableEq P] [DecidableEq Im] in
theorem unicodeHashKey_ascii {name : List Char} {nameSpace : Option (List Char)}
    (hascii : AsciiRequest name nameSpace) (scope : P) :
    unicodeHashKey (⟨utf16 name, nameSpace.map utf16, some scope, none, none, false, false⟩ :
        ILClassKeyInfo ILUInt16 N P Im) = (hashName (utf8 name) (nameSpace.map utf8)).toNat := by
  unfold unicodeHashKey hashName
  cases nameSpace with
  | none => simp only [Option.map_none, utf16_eq_of_isAscii hascii.1, hashUnicode_map]
  | some text =>
    simp only [Option.map_some, utf16_eq_of_isAscii hascii.1,
      utf16_eq_of_isAscii (hascii.2 text rfl), hashUnicode_map]
    rfl

theorem latinText_ascii {text : List Char} (hascii : IsAscii text) (str : CString) :
    LatinText str (utf16 text) ↔ str.chars = utf8 text := by
  have hinj : Function.Injective (BitVec.setWidth 16 : ILUInt8 → ILUInt16) := by
    intro a b h
    have hval := congrArg BitVec.toNat h
    rw [BitVec.toNat_setWidth, BitVec.toNat_setWidth, Nat.mod_eq_of_lt (by omega),
      Nat.mod_eq_of_lt (by omega)] at hval
    exact BitVec.eq_of_toNat_eq hval
  unfold LatinText
  rw [utf16_eq_of_isAscii hascii]
  exact hinj.list_map.eq_iff

/-- Bytes that are both the encoding of a text and its units are those of an ASCII text. -/
theorem isAscii_of_latinText {text : List Char} {str : CString} (hunits : LatinText str (utf16 text))
    (hbytes : str.chars = utf8 text) : IsAscii text := by
  apply (length_utf16_le text).2
  rw [← hunits, ← hbytes, List.length_map]

omit [DecidableEq N] [DecidableEq P] [DecidableEq Im] in
theorem latinNamed_ascii {name : List Char} {nameSpace : Option (List Char)}
    (hascii : AsciiRequest name nameSpace) (info : ILClassName N P Im) :
    LatinNamed info (utf16 name) (nameSpace.map utf16) ↔
      IsNamed info (utf8 name) (nameSpace.map utf8) ∨
        LacksNamespace info (utf8 name) (nameSpace.map utf8) := by
  unfold LatinNamed IsNamed LacksNamespace
  rw [latinText_ascii hascii.1]
  cases hinfo : info.nameSpace with
  | none =>
    cases nameSpace with
    | none => simp
    | some text => simp
  | some str =>
    cases nameSpace with
    | none => simp
    | some text => simp [latinText_ascii (hascii.2 text rfl)]

omit [DecidableEq N] [DecidableEq P] [DecidableEq Im] in
theorem asciiRequest_of_named {name : List Char} {nameSpace : Option (List Char)}
    {info : ILClassName N P Im} (hlatin : LatinNamed info (utf16 name) (nameSpace.map utf16))
    (hnamed : IsNamed info (utf8 name) (nameSpace.map utf8)) : AsciiRequest name nameSpace := by
  refine ⟨isAscii_of_latinText hlatin.1 hnamed.1, fun text htext => ?_⟩
  subst htext
  have hspace := hnamed.2
  rcases hlatin.2 with hnone | ⟨str, units, hstr, hunits, htext⟩
  · rw [hnone] at hspace
    cases hspace
  · rw [hstr] at hspace
    cases hunits
    exact isAscii_of_latinText htext (Option.some.inj hspace)

/-- The search for UTF-16 finds what the search for UTF-8 finds. For a request in ASCII, the
first record that passes is not an exported type; for any other request neither finds one. -/
def UnicodeAgrees (t : ILHashTable N) (scope : P) (name : List Char)
    (nameSpace : Option (List Char)) : Prop :=
  (AsciiRequest name nameSpace →
    NeverBefore (bucketOf t (utf8 name) (nameSpace.map utf8))
      (fun n => (IsNamed (names.info n) (utf8 name) (nameSpace.map utf8) ∨
          LacksNamespace (names.info n) (utf8 name) (nameSpace.map utf8)) ∧
        (names.info n).scope ≠ some scope ∧ Exported names scope (names.info n))
      (fun n => (IsNamed (names.info n) (utf8 name) (nameSpace.map utf8) ∨
          LacksNamespace (names.info n) (utf8 name) (nameSpace.map utf8)) ∧
        (names.info n).scope = some scope)) ∧
  (¬ AsciiRequest name nameSpace →
    (∀ n ∈ t.contents, ¬ (IsNamed (names.info n) (utf8 name) (nameSpace.map utf8) ∧
        InScope names scope (names.info n))) ∧
      ∀ n ∈ t.bucketElems (t.bucket (unicodeHashKey
          (⟨utf16 name, nameSpace.map utf16, some scope, none, none, false, false⟩ :
            ILClassKeyInfo ILUInt16 N P Im))),
        ¬ (LatinNamed (names.info n) (utf16 name) (nameSpace.map utf16) ∧
          (names.info n).scope = some scope))

theorem find?_same_iff {α : Type} {elems : List α} {test test' : α → Bool}
    (himp : ∀ x, test x = true → test' x = true) :
    elems.find? test = elems.find? test' ↔
      NeverBefore elems (fun x => test' x = true ∧ ¬ test x = true) fun x => test x = true := by
  have hsplit : ∀ x, test' x = true ↔ test x = true ∨ test' x = true ∧ ¬ test x = true := by
    intro x
    by_cases hx : test x = true
    · simp [hx, himp x hx]
    · simp [hx]
  rw [← find?_good_iff hsplit fun x hgood hbad => hbad.2 hgood]
  constructor
  · intro hsame x hx
    exact List.find?_some (hsame.trans hx)
  · intro hgood
    cases hfind : elems.find? test' with
    | none =>
      rw [List.find?_eq_none] at hfind ⊢
      exact fun x hx hpass => hfind x hx (himp x hpass)
    | some x =>
      obtain ⟨_, pre, post, helems, hpre⟩ := List.find?_eq_some_iff_append.1 hfind
      refine List.find?_eq_some_iff_append.2 ⟨hgood x hfind, pre, post, helems, fun y hy => ?_⟩
      have hnot := hpre y hy
      by_contra hpass
      rw [himp y (by simpa using hpass)] at hnot
      cases hnot

theorem map_chars_utf8Chars (nameSpace : Option (List Char)) :
    (nameSpace.map utf8Chars).map CString.chars = nameSpace.map utf8 := by
  cases nameSpace with
  | none => rfl
  | some text => exact congrArg some (CString.chars_ofList ..)

theorem ilClassLookup_eq (h : t.Inv (fun n => classHashCompute (names.info n)) chains) (scope : P)
    (name : List Char) (nameSpace : Option (List Char)) :
    ilClassLookup names t scope (utf8Chars name) (nameSpace.map utf8Chars) =
      some ((bucketOf t (utf8 name) (nameSpace.map utf8)).find? fun n =>
        classHashMatch names (names.info n)
          ⟨utf8 name, nameSpace.map utf8, some scope, none, none, false, false⟩) := by
  have hname : (utf8Chars name).chars = utf8 name := CString.chars_ofList ..
  unfold ilClassLookup classHashFind bucketOf
  rw [ilHashFindAlt_eq h, map_chars_utf8Chars, hname]
  rfl

theorem classHashMatch_iff (info : ILClassName N P Im) (scope : P) (name : List Char)
    (nameSpace : Option (List Char)) :
    classHashMatch names info
        ⟨utf8 name, nameSpace.map utf8, some scope, none, none, false, false⟩ = true ↔
      (IsNamed info (utf8 name) (nameSpace.map utf8) ∨
        LacksNamespace info (utf8 name) (nameSpace.map utf8)) ∧ InScope names scope info := by
  have hname : (utf8Chars name).chars = utf8 name := CString.chars_ofList ..
  rw [classHashMatch_scope_iff, matchText_chars_iff (utf8Chars name) (nameSpace.map utf8Chars)
    hname.symm (map_chars_utf8Chars nameSpace).symm, hname, map_chars_utf8Chars]

theorem unicode_same_ascii (h : t.Inv (fun n => classHashCompute (names.info n)) chains) (scope : P)
    {name : List Char} {nameSpace : Option (List Char)} (hascii : AsciiRequest name nameSpace) :
    ilClassLookupUnicode names t scope (utf16 name) (nameSpace.map utf16) false =
        ilClassLookup names t scope (utf8Chars name) (nameSpace.map utf8Chars) ↔
      NeverBefore (bucketOf t (utf8 name) (nameSpace.map utf8))
        (fun n => (IsNamed (names.info n) (utf8 name) (nameSpace.map utf8) ∨
            LacksNamespace (names.info n) (utf8 name) (nameSpace.map utf8)) ∧
          (names.info n).scope ≠ some scope ∧ Exported names scope (names.info n))
        (fun n => (IsNamed (names.info n) (utf8 name) (nameSpace.map utf8) ∨
            LacksNamespace (names.info n) (utf8 name) (nameSpace.map utf8)) ∧
          (names.info n).scope = some scope) := by
  have hunicode : ∀ n, unicodeMatch names (names.info n)
      ⟨utf16 name, nameSpace.map utf16, some scope, none, none, false, false⟩ = true ↔ _ :=
    fun n => (unicodeMatch_iff names (names.info n) scope (utf16 name) (nameSpace.map utf16)).trans
      (and_congr_left' (latinNamed_ascii hascii (names.info n)))
  have hmatch := fun n => classHashMatch_iff names (names.info n) scope name nameSpace
  rw [ilClassLookup_eq names h, ilClassLookupUnicode, ilHashFindAlt_eq h,
    unicodeHashKey_ascii hascii, Option.some.injEq]
  refine (find?_same_iff fun n hn => ?_).trans ?_
  · have hn' := (hunicode n).1 hn
    exact (hmatch n).2 ⟨hn'.1, .inl hn'.2⟩
  · simp only [hunicode, hmatch]
    have hbad : ∀ n, ((IsNamed (names.info n) (utf8 name) (nameSpace.map utf8) ∨
          LacksNamespace (names.info n) (utf8 name) (nameSpace.map utf8)) ∧
            InScope names scope (names.info n)) ∧
          ¬ ((IsNamed (names.info n) (utf8 name) (nameSpace.map utf8) ∨
            LacksNamespace (names.info n) (utf8 name) (nameSpace.map utf8)) ∧
              (names.info n).scope = some scope) ↔
        (IsNamed (names.info n) (utf8 name) (nameSpace.map utf8) ∨
          LacksNamespace (names.info n) (utf8 name) (nameSpace.map utf8)) ∧
            (names.info n).scope ≠ some scope ∧ Exported names scope (names.info n) := by
      intro n
      unfold InScope
      tauto
    simp only [hbad]
    rfl

theorem unicode_same_iff (h : t.Inv (fun n => classHashCompute (names.info n)) chains) (scope : P)
    (name : List Char) (nameSpace : Option (List Char))
    (hsound : LookupSound (ilClassLookup names t scope (utf8Chars name) (nameSpace.map utf8Chars))
      t.contents fun n => IsNamed (names.info n) (utf8 name) (nameSpace.map utf8) ∧
        InScope names scope (names.info n)) :
    ilClassLookupUnicode names t scope (utf16 name) (nameSpace.map utf16) false =
        ilClassLookup names t scope (utf8Chars name) (nameSpace.map utf8Chars) ↔
      UnicodeAgrees names t scope name nameSpace := by
  unfold UnicodeAgrees
  by_cases hascii : AsciiRequest name nameSpace
  · rw [unicode_same_ascii names h scope hascii]
    exact ⟨fun hbefore => ⟨fun _ => hbefore, fun hnot => absurd hascii hnot⟩,
      fun hagrees => hagrees.1 hascii⟩
  · obtain ⟨found, hfound, hgood, hnone⟩ := hsound
    rw [hfound, ilClassLookupUnicode, ilHashFindAlt_eq h, Option.some.injEq]
    constructor
    · intro hsame
      refine ⟨fun hyes => absurd hyes hascii, fun _ => ?_⟩
      have hempty : found = none := by
        cases found with
        | none => rfl
        | some n =>
          have hpass := List.find?_some hsame
          have hlatin := (unicodeMatch_iff names _ _ _ _).1 hpass
          exact absurd (asciiRequest_of_named hlatin.1 (hgood n rfl).2.1) hascii
      refine ⟨hnone hempty, fun n hn hlatin => ?_⟩
      rw [hempty] at hsame
      exact List.find?_eq_none.1 hsame n hn ((unicodeMatch_iff names ..).2 hlatin)
    · intro hagrees
      obtain ⟨hnamed, hlatin⟩ := hagrees.2 hascii
      have hempty : found = none := by
        cases found with
        | none => rfl
        | some n => exact absurd (hgood n rfl).2 (hnamed n (hgood n rfl).1)
      rw [hempty, List.find?_eq_none]
      exact fun n hn hpass => hlatin n hn ((unicodeMatch_iff names ..).1 hpass)

/-! ### Any state of the class hash -/

/-- The class hash after names have been added and the names of an image removed. -/
structure ClassHashState (names : ClassNames N P Im) where
  ops : List (HashOp N Im)
  table : ILHashTable N
  built : HashOp.runAll (fun n => classHashCompute (names.info n))
    (ilHashCreate N ilContextHashSize) ops = some table

omit [DecidableEq P] [DecidableEq Im] in
theorem ClassHashState.inv {names : ClassNames N P Im} (state : ClassHashState names) :
    ∃ chains, state.table.Inv (fun n => classHashCompute (names.info n)) chains := by
  obtain ⟨t, chains, hrun, hinv, _⟩ := HashOp.runAll_spec
    (ILHashTable.inv_create ilContextHashSize) state.ops
  obtain rfl := Option.some.inj (state.built.symm.trans hrun)
  exact ⟨chains, hinv⟩

/-- The record is the one that a request asks for. -/
def Wanted (scope : P) (name : List ILUInt8) (nameSpace : Option (List ILUInt8)) (n : N) : Prop :=
  IsNamed (names.info n) name nameSpace ∧ InScope names scope (names.info n)

/-- The record would be but for the namespace, which it has none of. -/
def Spaceless (scope : P) (name : List ILUInt8) (nameSpace : Option (List ILUInt8)) (n : N) :
    Prop :=
  LacksNamespace (names.info n) name nameSpace ∧ InScope names scope (names.info n)

/-- One class `X` in the scope 0, without a namespace. -/
def oneClass : ClassNames Nat Nat Nat where
  info _ := ⟨0, .ofList [0x58] nofun, none, some 0, none, .inl (by decide)⟩
  token _ := 0
  imageOf _ := 0

def oneClassState : ClassHashState oneClass :=
  ⟨[.add 0], ilHashAdd (fun n => classHashCompute (oneClass.info n))
    (ilHashCreate Nat ilContextHashSize) 0, rfl⟩

end Pnet.Image.ClassHash
