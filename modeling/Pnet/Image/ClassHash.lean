import Pnet.CTypes
import Pnet.Support.HashTabRun

/-! The class name hash of a context, `image/context.c`, and the lookups in it of
`image/class.c`. A lookup gives the name record that it finds; the class behind the record
is what its token stands for. `unsigned long` has 64 bits, and lengths are not negative. -/
namespace Pnet.Image.ClassHash
open Pnet.Support

/-- A `const char *`: memory from there on, of which the text ends at the first zero. -/
structure CString where
  bytes : Nat → ILUInt8
  len : Nat
  inside : ∀ i < len, bytes i ≠ 0
  terminated : bytes len = 0

namespace CString

def chars (str : CString) : List ILUInt8 := (List.range str.len).map str.bytes

/-- A text with zeros after it. -/
def ofList (text : List ILUInt8) (htext : 0 ∉ text) : CString where
  bytes i := text[i]?.getD 0
  len := text.length
  inside i hi := by
    rw [List.getElem?_eq_getElem hi, Option.getD_some]
    exact fun heq => htext (heq ▸ List.getElem_mem hi)
  terminated := by simp

end CString

/-- `P` are the pointers to program items, `N` those to name records. -/
structure ILClassName (N P Im : Type) where
  image : Im
  name : CString
  nameSpace : Option CString
  scope : Option P
  scopeName : Option N
  /-- "invalid scope for type reference" -/
  hasScope : scope ≠ none ∨ scopeName ≠ none

/-- The key of a search, with texts of the characters `C`. -/
structure ILClassKeyInfo (C N P Im : Type) where
  name : List C
  nameSpace : Option (List C)
  scopeItem : Option P
  scopeName : Option N
  image : Option Im
  wantGlobal : Bool
  ignoreCase : Bool

/-- The memory with the name records and the program items. -/
structure ClassNames (N P Im : Type) where
  info : N → ILClassName N P Im
  token : P → ILUInt32
  imageOf : P → Im

def ilMetaTokenMask : ILUInt32 := 0xFF000000
def ilMetaTokenModule : ILUInt32 := 0x00000000
def ilMetaTokenFile : ILUInt32 := 0x26000000

/-! ### Hashing -/

def lowerCase (ch : ILUInt64) : ILUInt64 :=
  if 0x41 ≤ ch ∧ ch ≤ 0x5A then ch - 0x41 + 0x61 else ch

/-- The loop of both hash functions, for bytes and for UTF-16 units. -/
def hashChars {w : Nat} (start : ILUInt64) (str : List (BitVec w)) : ILUInt64 :=
  str.foldl (fun hash ch => (hash <<< 5) + hash + lowerCase (ch.setWidth 64)) start

def hashIgnoreCase (start : ILUInt64) (str : List ILUInt8) : ILUInt64 := hashChars start str

def hashUnicode (start : ILUInt64) (str : List ILUInt16) : ILUInt64 := hashChars start str

/-- `ClassHash_Compute` and `ClassHash_KeyCompute`. -/
def hashName (name : List ILUInt8) (nameSpace : Option (List ILUInt8)) : ILUInt64 :=
  let hash :=
    match nameSpace with
    | some nameSpace => hashIgnoreCase (hashIgnoreCase 0 nameSpace) [0x2E]
    | none => 0
  hashIgnoreCase hash name

variable {C N P Im : Type}

def classHashCompute (info : ILClassName N P Im) : Nat :=
  (hashName info.name.chars (info.nameSpace.map CString.chars)).toNat

def classHashKeyCompute (key : ILClassKeyInfo ILUInt8 N P Im) : Nat :=
  (hashName key.name key.nameSpace).toNat

def unicodeHashKey (key : ILClassKeyInfo ILUInt16 N P Im) : Nat :=
  let hash : ILUInt64 :=
    match key.nameSpace with
    | some nameSpace =>
      let hash := hashUnicode 0 nameSpace
      (hash <<< 5) + hash + 0x2E
    | none => 0
  (hashUnicode hash key.name).toNat

/-! ### Comparing -/

/-- `strncmp(str, key, len) == 0`, from the byte `i` of `str` on. -/
def strncmpFrom (str : CString) : Nat → List ILUInt8 → Bool
  | _, [] => true
  | i, ch :: key =>
    if str.bytes i ≠ ch then false
    else if ch = 0 then true
    else strncmpFrom str (i + 1) key

/-- `strncmp(str, key, len) == 0 && str[len] == '\0'` -/
def compareText (str : CString) (key : List ILUInt8) : Bool :=
  strncmpFrom str 0 key && str.bytes key.length == 0

def compareUnicode (ignoreCase : Bool) : List ILUInt8 → List ILUInt16 → Bool
  | [], str2 => str2.isEmpty
  | _ :: _, [] => false
  | ch :: str, ch2 :: str2 =>
    if ignoreCase then
      if lowerCase (ch.setWidth 64) ≠ lowerCase ((ch2 &&& 0xFF).setWidth 64) then false
      else compareUnicode ignoreCase str str2
    else if ch.setWidth 16 ≠ ch2 then false
    else compareUnicode ignoreCase str str2

/-- The test that begins both match functions: a class without a namespace passes. -/
def matchText (compare : CString → List C → Bool) (info : ILClassName N P Im)
    (key : ILClassKeyInfo C N P Im) : Bool :=
  (match info.nameSpace, key.nameSpace with
    | none, _ => true
    | some _, none => false
    | some nameSpace, some nameSpaceKey => compare nameSpace nameSpaceKey) &&
  compare info.name key.name

variable [DecidableEq N] [DecidableEq P] [DecidableEq Im] (names : ClassNames N P Im)

/-- "Exported types in a file scope will also match module requests" -/
def matchModule (info : ILClassName N P Im) (key : ILClassKeyInfo C N P Im) : Bool :=
  match key.scopeItem, info.scope with
  | some scopeItem, some scope =>
    names.token scopeItem &&& ilMetaTokenMask = ilMetaTokenModule &&
      names.token scope &&& ilMetaTokenMask = ilMetaTokenFile &&
      names.imageOf scopeItem = names.imageOf scope
  | _, _ => false

def matchScope (info : ILClassName N P Im) (key : ILClassKeyInfo C N P Im) : Bool :=
  if key.scopeItem ≠ none ∧ key.scopeItem ≠ info.scope then false
  else if key.scopeName ≠ none ∧ key.scopeName ≠ info.scopeName then false
  else true

def matchImage (info : ILClassName N P Im) (key : ILClassKeyInfo C N P Im) : Bool :=
  if key.image ≠ none ∧ key.image ≠ some info.image then false else true

/-- "Do we only want types at the global level?" -/
def matchGlobal (info : ILClassName N P Im) (key : ILClassKeyInfo C N P Im) : Bool :=
  if key.wantGlobal then
    if info.scopeName ≠ none then false
    else info.scope.any fun scope => names.token scope &&& ilMetaTokenMask = ilMetaTokenModule
  else true

def classHashMatch (info : ILClassName N P Im) (key : ILClassKeyInfo ILUInt8 N P Im) : Bool :=
  matchText compareText info key && (matchModule names info key || matchScope info key) &&
    matchImage info key && matchGlobal names info key

def unicodeMatch (info : ILClassName N P Im) (key : ILClassKeyInfo ILUInt16 N P Im) : Bool :=
  matchText (fun str key' => compareUnicode key.ignoreCase str.chars key') info key &&
    matchScope info key && matchImage info key && matchGlobal names info key

/-! ### The lookups -/

/-- `IL_CONTEXT_HASH_SIZE` -/
def ilContextHashSize : Nat := 509

def classHashFind (t : ILHashTable N) (key : ILClassKeyInfo ILUInt8 N P Im) : Option (Option N) :=
  ilHashFindAlt t key classHashKeyCompute fun n key => classHashMatch names (names.info n) key

def ilClassLookupLen (t : ILHashTable N) (scope : P) (name : List ILUInt8)
    (nameSpace : Option (List ILUInt8)) : Option (Option N) :=
  classHashFind names t ⟨name, nameSpace, some scope, none, none, false, false⟩

def ilClassLookup (t : ILHashTable N) (scope : P) (name : CString) (nameSpace : Option CString) :
    Option (Option N) :=
  classHashFind names t
    ⟨name.chars, nameSpace.map CString.chars, some scope, none, none, false, false⟩

def ilClassLookupUnicode (t : ILHashTable N) (scope : P) (name : List ILUInt16)
    (nameSpace : Option (List ILUInt16)) (ignoreCase : Bool) : Option (Option N) :=
  ilHashFindAlt t (⟨name, nameSpace, some scope, none, none, false, ignoreCase⟩ :
      ILClassKeyInfo ILUInt16 N P Im) unicodeHashKey
    fun n key => unicodeMatch names (names.info n) key

def ilClassLookupGlobal (t : ILHashTable N) (name : CString) (nameSpace : Option CString) :
    Option (Option N) :=
  classHashFind names t
    ⟨name.chars, nameSpace.map CString.chars, none, none, none, true, false⟩

end Pnet.Image.ClassHash

/-! ### What a lookup finds

What a class lookup finds: the first record of a bucket whose texts pass the comparison.
A record without a namespace passes it whatever namespace is requested. -/
namespace Pnet.Image.ClassHash
open Pnet.Support

/-! ### Texts -/

namespace CString

variable (str : CString)

@[simp] theorem length_chars : str.chars.length = str.len := by simp [chars]

theorem getElem_chars {i : Nat} (hi : i < str.chars.length) : str.chars[i] = str.bytes i := by
  simp [chars]

theorem zero_notMem_chars : 0 ∉ str.chars := by
  intro hmem
  obtain ⟨i, hi, hzero⟩ := List.mem_map.1 hmem
  exact str.inside i (List.mem_range.1 hi) hzero

@[simp] theorem chars_ofList (text : List ILUInt8) (htext : 0 ∉ text) :
    (ofList text htext).chars = text := by
  apply List.ext_getElem
  · simp [ofList]
  · intro i hi hi'
    rw [getElem_chars]
    simp [ofList, hi']

end CString

/-- The text goes on after a zero at the end of the string, and memory happens to have
another zero where the text ends. -/
def CutText (str : CString) (text : List ILUInt8) : Prop :=
  ∃ rest, text = str.chars ++ 0 :: rest ∧ str.bytes text.length = 0

theorem strncmpFrom_iff (str : CString) (key : List ILUInt8) (i : Nat) (hi : i ≤ str.len) :
    strncmpFrom str i key = true ↔ key <+: str.chars.drop i ∨
      ∃ rest, key = str.chars.drop i ++ 0 :: rest := by
  induction key generalizing i with
  | nil => simp [strncmpFrom]
  | cons ch key ih =>
    unfold strncmpFrom
    by_cases hend : i = str.len
    · have hdrop : str.chars.drop i = [] := List.drop_eq_nil_of_le (by simp [hend])
      have hzero : str.bytes i = 0 := hend ▸ str.terminated
      rw [hdrop, hzero]
      by_cases hch : ch = 0
      · subst hch
        simp
      · have hne : ch ≠ 0#8 := hch
        simp [hne, Ne.symm hne]
    · have hlt : i < str.chars.length := by
        rw [str.length_chars]
        omega
      rw [List.drop_eq_getElem_cons hlt, str.getElem_chars hlt]
      by_cases hch : str.bytes i = ch
      · have hne : ch ≠ 0 := hch ▸ str.inside i (by omega)
        rw [if_neg (not_not.2 hch), if_neg hne, ih (i + 1) (by omega), hch]
        simp [List.cons_prefix_cons]
      · rw [if_pos hch]
        simp [List.cons_prefix_cons, Ne.symm hch]

theorem compareText_iff (str : CString) (text : List ILUInt8) :
    compareText str text = true ↔ str.chars = text ∨ CutText str text := by
  unfold compareText
  rw [Bool.and_eq_true, strncmpFrom_iff str text 0 (Nat.zero_le _), List.drop_zero, beq_iff_eq]
  constructor
  · rintro ⟨hstarts | ⟨rest, htext⟩, hzero⟩
    · left
      have hle := hstarts.length_le
      have hlen : ¬ text.length < str.len := fun hlt => str.inside _ hlt hzero
      rw [str.length_chars] at hle
      exact (hstarts.eq_of_length (by rw [str.length_chars]; omega)).symm
    · exact .inr ⟨rest, htext, hzero⟩
  · rintro (rfl | ⟨rest, htext, hzero⟩)
    · refine ⟨.inl (List.prefix_refl _), ?_⟩
      rw [str.length_chars]
      exact str.terminated
    · exact ⟨.inr ⟨rest, htext⟩, hzero⟩

theorem compareText_chars_iff (str str2 : CString) :
    compareText str str2.chars = true ↔ str.chars = str2.chars := by
  rw [compareText_iff]
  refine or_iff_left ?_
  rintro ⟨rest, htext, _⟩
  exact str2.zero_notMem_chars (htext ▸ by simp)

/-! ### Finding in a bucket -/

section Bucket

variable {α κ : Type} {computeFunc : α → Nat} {t : ILHashTable α} {chains : Nat → List EntryRef}

theorem find?_elemsOf (t : ILHashTable α) (test : α → Bool) (cells : List EntryRef) :
    ((cells.find? fun r => (t.entry r).elem.any test).bind fun r => (t.entry r).elem) =
      (t.elemsOf cells).find? test := by
  induction cells with
  | nil => rfl
  | cons r cells ih =>
    unfold ILHashTable.elemsOf at ih ⊢
    rw [List.find?_cons, List.filterMap_cons]
    cases helem : (t.entry r).elem with
    | none => exact ih
    | some elem =>
      rw [List.find?_cons]
      cases htest : test elem with
      | true => simp [htest, helem]
      | false =>
        simp only [Option.any_some, htest]
        exact ih

/-- A search gives the first element of the bucket that matches. -/
theorem ilHashFindAlt_eq (h : t.Inv computeFunc chains) (key : κ) (keyComputeFunc : κ → Nat)
    (matchFunc : α → κ → Bool) :
    ilHashFindAlt t key keyComputeFunc matchFunc =
      some ((t.bucketElems (t.bucket (keyComputeFunc key))).find? (matchFunc · key)) := by
  have hhash := h.bucket_lt (keyComputeFunc key)
  unfold ilHashFindAlt
  rw [h.seekElem hhash, h.bucketElems hhash, ← find?_elemsOf]
  cases (EntryRef.table (t.bucket (keyComputeFunc key)) ::
      chains (t.bucket (keyComputeFunc key))).find? fun r =>
        (t.entry r).elem.any (matchFunc · key) <;> rfl

theorem mem_bucketElems_iff (h : t.Inv computeFunc chains) {hash : Nat} (hhash : hash < t.size)
    (elem : α) :
    elem ∈ t.bucketElems hash ↔ elem ∈ t.contents ∧ t.bucket (computeFunc elem) = hash := by
  rw [h.bucketElems hhash, h.mem_contents]
  unfold ILHashTable.elemsOf
  rw [List.mem_filterMap]
  constructor
  · rintro ⟨r, hr, helem⟩
    exact ⟨⟨hash, hhash, r, hr, helem⟩, h.homed hash hhash r hr elem helem⟩
  · rintro ⟨⟨hash', hhash', r, hr, helem⟩, hhome⟩
    have hsame := h.homed hash' hhash' r hr elem helem
    rw [hhome] at hsame
    exact ⟨r, hsame ▸ hr, helem⟩

end Bucket

/-- No bad element comes before the first good one. -/
def NeverBefore {α : Type} (elems : List α) (bad good : α → Prop) : Prop :=
  ∀ pre x post, elems = pre ++ x :: post → bad x → ∃ y ∈ pre, good y

theorem find?_good_iff {α : Type} {elems : List α} {test : α → Bool} {bad good : α → Prop}
    (htest : ∀ x, test x = true ↔ good x ∨ bad x) (hapart : ∀ x, good x → ¬ bad x) :
    (∀ x, elems.find? test = some x → good x) ↔ NeverBefore elems bad good := by
  constructor
  · intro hfind pre x post helems hbad
    by_contra hnone
    have hpre : ∀ y ∈ pre, ¬ test y = true := by
      intro y hy hy'
      cases hfirst : pre.find? test with
      | none => exact List.find?_eq_none.1 hfirst y hy hy'
      | some z =>
        have hgood := hfind z (by rw [helems, List.find?_append, hfirst]; rfl)
        exact hnone ⟨z, List.mem_of_find?_eq_some hfirst, hgood⟩
    have hx : elems.find? test = some x := by
      rw [helems, List.find?_append, List.find?_eq_none.2 hpre, List.find?_cons,
        (htest x).2 (.inr hbad)]
      rfl
    exact hapart x (hfind x hx) hbad
  · intro hbefore x hx
    obtain ⟨hpass, pre, post, helems, hpre⟩ := List.find?_eq_some_iff_append.1 hx
    refine ((htest x).1 hpass).resolve_right fun hbad => ?_
    obtain ⟨y, hy, hgood⟩ := hbefore pre x post helems hbad
    have hnot := hpre y hy
    rw [(htest y).2 (.inl hgood)] at hnot
    cases hnot

/-- A search that ends: what it finds is good, and it finds something if there is a good one. -/
def LookupSound {α : Type} (result : Option (Option α)) (registered : Multiset α)
    (good : α → Prop) : Prop :=
  ∃ found, result = some found ∧ (∀ x, found = some x → x ∈ registered ∧ good x) ∧
    (found = none → ∀ x ∈ registered, ¬ good x)

theorem lookupSound_iff {α κ : Type} {computeFunc : α → Nat} {t : ILHashTable α}
    {chains : Nat → List EntryRef} (h : t.Inv computeFunc chains) (key : κ)
    {keyComputeFunc : κ → Nat} {matchFunc : α → κ → Bool} {bad good : α → Prop}
    (htest : ∀ x, matchFunc x key = true ↔ good x ∨ bad x) (hapart : ∀ x, good x → ¬ bad x)
    (hhashes : ∀ x, good x → computeFunc x = keyComputeFunc key) :
    LookupSound (ilHashFindAlt t key keyComputeFunc matchFunc) t.contents good ↔
      NeverBefore (t.bucketElems (t.bucket (keyComputeFunc key))) bad good := by
  have hhash := h.bucket_lt (keyComputeFunc key)
  rw [ilHashFindAlt_eq h, ← find?_good_iff htest hapart]
  constructor
  · rintro ⟨found, hfound, hgood, _⟩ x hx
    exact (hgood x ((Option.some.inj hfound).symm.trans hx)).2
  · intro hgood
    refine ⟨_, rfl, fun x hx => ⟨?_, hgood x hx⟩, fun hnone x hx hx' => ?_⟩
    · exact ((mem_bucketElems_iff h hhash x).1 (List.mem_of_find?_eq_some hx)).1
    · have hmem := (mem_bucketElems_iff h hhash x).2 ⟨hx, congrArg t.bucket (hhashes x hx')⟩
      exact List.find?_eq_none.1 hnone x hmem ((htest x).2 (.inl hx'))

end Pnet.Image.ClassHash
