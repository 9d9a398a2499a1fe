import Mathlib.Data.Multiset.Pairwise
import Pnet.Image.TypeIdentity
import Pnet.Support.HashTabSound
import Pnet.Support.Intern

/-! The hash of a type and the table of the synthetic classes, from `image/synthetic.c`.
Identity overlooks the prefixes of a type, at every level; the hash counts them in. -/
namespace Pnet.Image
open Pnet.Support

def ilTypeComplexByRef : ILUInt16 := 1
def ilTypeComplexPtr : ILUInt16 := 2
def ilTypeComplexArray : ILUInt16 := 3
def ilTypeComplexArrayContinue : ILUInt16 := 4
def ilTypeComplexCmodReqd : ILUInt16 := 6
def ilTypeComplexCmodOpt : ILUInt16 := 7
def ilTypeComplexSentinel : ILUInt16 := 9
def ilTypeComplexPinned : ILUInt16 := 10
def ilTypeComplexMVar : ILUInt16 := 13
def ilTypeComplexVar : ILUInt16 := 14
def ilTypeComplexMethodSentinel : ILUInt16 := 1

def hashWord (start word : ILUInt64) : ILUInt64 := (start <<< 5) + start + word

/-- `kind__` is a signed short. -/
def hashKind (start : ILUInt64) (kind : ILUInt16) : ILUInt64 := hashWord start (kind.signExtend 64)

/-- The node kinds whose parameters are hashed. -/
def hashesParams (kind : ILUInt16) : Bool :=
  kind &&& 0xFF == ilTypeComplexWith || kind &&& 0xFF == ilTypeComplexProperty ||
    kind &&& 0xFF == ilTypeComplexMethod ||
    kind &&& 0xFF == ilTypeComplexMethod ||| ilTypeComplexMethodSentinel

section

variable (ct : ClassTable)

def hashClass (start : ILUInt64) (info : ClassId) : ILUInt64 :=
  match (ct.className info).nameSpace with
  | some nameSpace =>
    ilHashString (ilHashString (ilHashString start nameSpace) [0x2E]) (ct.className info).name
  | none => ilHashString start (ct.className info).name

mutual

def hashType : ILUInt64 → ILType → ILUInt64
  | start, .invalid => start
  | start, .primitive elem => hashWord start (BitVec.ofNat 64 elem)
  | start, .class info => hashClass ct start info
  | start, .valueType info => hashClass ct start info
  | start, .byRef refType => hashType (hashKind start ilTypeComplexByRef) refType
  | start, .ptr refType => hashType (hashKind start ilTypeComplexPtr) refType
  | start, .pinned refType => hashType (hashKind start ilTypeComplexPinned) refType
  | start, .array elemType _ _ => hashType (hashKind start ilTypeComplexArray) elemType
  | start, .arrayContinue elemType _ _ =>
    hashType (hashKind start ilTypeComplexArrayContinue) elemType
  | start, .cmodReqd _ type => hashType (hashKind start ilTypeComplexCmodReqd) type
  | start, .cmodOpt _ type => hashType (hashKind start ilTypeComplexCmodOpt) type
  | start, .sentinel => hashKind start ilTypeComplexSentinel
  | start, .var num =>
    hashWord (hashKind start ilTypeComplexVar) ((BitVec.ofNat 32 num).signExtend 64)
  | start, .mvar num =>
    hashWord (hashKind start ilTypeComplexMVar) ((BitVec.ofNat 32 num).signExtend 64)
  | start, .signature kind _ retType params =>
    if hashesParams kind then hashTypes (hashType (hashKind start kind) retType) params
    else hashKind start kind

def hashTypes : ILUInt64 → List ILType → ILUInt64
  | start, [] => start
  | start, type :: types => hashTypes (hashType start type) types

end

def ilTypeHash (type : ILType) : ILUInt64 := hashType ct 0 type

/-- `ILTypeIdentical`, over loaded classes. -/
def typeIdenticalIn (type type2 : ILType) : Bool := typeIdentical ct.classIdentical type type2

end

/-! ### The table of synthetic classes -/

section

variable (ct : ClassTable)

def synHashCompute (type : ILType) : Nat := (ilTypeHash ct type).toNat

/-- `_ILTypeToSyntheticArray` and `_ILTypeToSyntheticOther`, as far as the table goes: an entry
is a synthetic class, of which its type is read. Building the class is taken to succeed. -/
def ilTypeToSynthetic (table : ILHashTable ILType) (type : ILType) :
    Option (ILHashTable ILType × ILType) :=
  match ilHashFindAlt table type (synHashCompute ct) (typeIdenticalIn ct) with
  | some (some info) => some (table, info)
  | some none => some (ilHashAdd (synHashCompute ct) table type, type)
  | none => none

/-- The table after the classes of some types have been asked for. -/
def syntheticRun : ILHashTable ILType → List ILType → Option (ILHashTable ILType)
  | table, [] => some table
  | table, type :: types =>
    (ilTypeToSynthetic ct table type).bind fun result => syntheticRun result.1 types

end

/-! ### Prefixes -/

mutual

/-- Whether two types have prefixes of the same kinds at the same places, whatever the classes
of the modifiers. -/
def samePrefixes : ILType → ILType → Bool
  | .cmodReqd _ type, type2 =>
    match type2 with
    | .cmodReqd _ type2 => samePrefixes type type2
    | _ => false
  | .cmodOpt _ type, type2 =>
    match type2 with
    | .cmodOpt _ type2 => samePrefixes type type2
    | _ => false
  | .pinned refType, type2 =>
    match type2 with
    | .pinned refType2 => samePrefixes refType refType2
    | _ => false
  | .byRef refType, type2 =>
    match type2 with
    | .byRef refType2 => samePrefixes refType refType2
    | _ => !isPrefix type2
  | .ptr refType, type2 =>
    match type2 with
    | .ptr refType2 => samePrefixes refType refType2
    | _ => !isPrefix type2
  | .array elemType _ _, type2 =>
    match type2 with
    | .array elemType2 _ _ => samePrefixes elemType elemType2
    | _ => !isPrefix type2
  | .arrayContinue elemType _ _, type2 =>
    match type2 with
    | .arrayContinue elemType2 _ _ => samePrefixes elemType elemType2
    | _ => !isPrefix type2
  | .signature _ _ retType params, type2 =>
    match type2 with
    | .signature _ _ retType2 params2 =>
      samePrefixes retType retType2 && samePrefixesAll params params2
    | _ => !isPrefix type2
  | _, type2 => !isPrefix type2

def samePrefixesAll : List ILType → List ILType → Bool
  | type :: types, type2 :: types2 => samePrefixes type type2 && samePrefixesAll types types2
  | _, _ => true

end

end Pnet.Image

/-! ### What is found

Where the hash of types respects their identity. The low bits of the hash only add up,
which tells the hashes apart whenever the kinds of the prefixes do not add up to the same. -/
namespace Pnet.Image
open Pnet.Support

/-! ### Identical types whose prefixes agree -/

theorem isPrefix_of_samePrefixes {type type2 : ILType} (htype : isPrefix type = false)
    (h : samePrefixes type type2 = true) : isPrefix type2 = false := by
  cases type with
  | cmodReqd | cmodOpt | pinned => cases htype
  | _ => cases type2 <;> first | rfl | cases h

variable {ct : ClassTable}

theorem alike_of_samePrefixes {type type2 : ILType} (htype : isPrefix type = false)
    (hsame : samePrefixes type type2 = true) (h : typeIdenticalIn ct type type2 = true) :
    Alike ct.classIdentical (fun type type2 => typeIdenticalIn ct type type2 = true) type type2 := by
  have halike := (typeIdentical_iff type type2).1 h
  rwa [ilTypeStripPrefixes_eq_self htype,
    ilTypeStripPrefixes_eq_self (isPrefix_of_samePrefixes htype hsame)] at halike

theorem typeIdenticalIn_congr_right {type type2 type3 : ILType}
    (h : ilTypeStripPrefixes type2 = ilTypeStripPrefixes type3) :
    typeIdenticalIn ct type type2 = typeIdenticalIn ct type type3 := typeIdentical_congr_right h

theorem hashClass_congr {info info2 : ClassId} (h : ct.className info = ct.className info2)
    (start : ILUInt64) : hashClass ct start info = hashClass ct start info2 := by
  unfold hashClass
  rw [h]

mutual

theorem hashType_eq_of_samePrefixes : ∀ type type2, typeIdenticalIn ct type type2 = true →
    samePrefixes type type2 = true → ∀ start, hashType ct start type = hashType ct start type2
  | .invalid, type2, h, hsame, start => by
    cases alike_of_samePrefixes rfl hsame h with
    | invalid => rfl
  | .primitive elem, type2, h, hsame, start => by
    cases alike_of_samePrefixes rfl hsame h with
    | primitive => rfl
  | .class info, type2, h, hsame, start => by
    cases alike_of_samePrefixes rfl hsame h with
    | «class» h => exact hashClass_congr (ct.className_of_classIdentical h) start
  | .valueType info, type2, h, hsame, start => by
    cases alike_of_samePrefixes rfl hsame h with
    | valueType h => exact hashClass_congr (ct.className_of_classIdentical h) start
  | .byRef type, type2, h, hsame, start => by
    cases alike_of_samePrefixes rfl hsame h with
    | byRef hpart => exact hashType_eq_of_samePrefixes type _ hpart hsame _
  | .ptr type, type2, h, hsame, start => by
    cases alike_of_samePrefixes rfl hsame h with
    | ptr hpart => exact hashType_eq_of_samePrefixes type _ hpart hsame _
  | .pinned type, type2, h, hsame, start => by
    cases type2 with
    | pinned type2 =>
      have hstrip : ilTypeStripPrefixes (.pinned type2) = ilTypeStripPrefixes type2 := rfl
      have hpart : typeIdenticalIn ct type (.pinned type2) = true := h
      rw [typeIdenticalIn_congr_right hstrip] at hpart
      exact hashType_eq_of_samePrefixes type type2 hpart hsame _
    | _ => cases hsame
  | .array type size lowBound, type2, h, hsame, start => by
    cases alike_of_samePrefixes rfl hsame h with
    | array _ _ hpart => exact hashType_eq_of_samePrefixes type _ hpart hsame _
  | .arrayContinue type size lowBound, type2, h, hsame, start => by
    cases alike_of_samePrefixes rfl hsame h with
    | arrayContinue _ _ hpart => exact hashType_eq_of_samePrefixes type _ hpart hsame _
  | .cmodReqd info type, type2, h, hsame, start => by
    cases type2 with
    | cmodReqd info2 type2 =>
      have hstrip : ilTypeStripPrefixes (.cmodReqd info2 type2) = ilTypeStripPrefixes type2 := rfl
      have hpart : typeIdenticalIn ct type (.cmodReqd info2 type2) = true := h
      rw [typeIdenticalIn_congr_right hstrip] at hpart
      exact hashType_eq_of_samePrefixes type type2 hpart hsame _
    | _ => cases hsame
  | .cmodOpt info type, type2, h, hsame, start => by
    cases type2 with
    | cmodOpt info2 type2 =>
      have hstrip : ilTypeStripPrefixes (.cmodOpt info2 type2) = ilTypeStripPrefixes type2 := rfl
      have hpart : typeIdenticalIn ct type (.cmodOpt info2 type2) = true := h
      rw [typeIdenticalIn_congr_right hstrip] at hpart
      exact hashType_eq_of_samePrefixes type type2 hpart hsame _
    | _ => cases hsame
  | .sentinel, type2, h, hsame, start => by
    cases alike_of_samePrefixes rfl hsame h with
    | sentinel => rfl
  | .var num, type2, h, hsame, start => by
    cases alike_of_samePrefixes rfl hsame h with
    | var => rfl
  | .mvar num, type2, h, hsame, start => by
    cases alike_of_samePrefixes rfl hsame h with
    | mvar => rfl
  | .signature kind numGen retType params, type2, h, hsame, start => by
    cases alike_of_samePrefixes rfl hsame h with
    | signature hkind hnumGen hret hparams =>
      obtain ⟨hsameRet, hsameParams⟩ := Bool.and_eq_true_iff.1 hsame
      unfold hashType
      rw [hashType_eq_of_samePrefixes retType _ hret hsameRet,
        hashTypes_eq_of_samePrefixes params _ hparams hsameParams]

theorem hashTypes_eq_of_samePrefixes : ∀ types types2,
    List.Forall₂ (fun type type2 => typeIdenticalIn ct type type2 = true) types types2 →
    samePrefixesAll types types2 = true →
    ∀ start, hashTypes ct start types = hashTypes ct start types2
  | [], _, .nil, _, _ => rfl
  | type :: types, _, .cons h hs, hsame, start => by
    obtain ⟨hsame, hsames⟩ := Bool.and_eq_true_iff.1 hsame
    unfold hashTypes
    rw [hashType_eq_of_samePrefixes type _ h hsame, hashTypes_eq_of_samePrefixes types _ hs hsames]

end

/-! ### What prefixes do to a hash -/

mutual

/-- The type without its prefixes, at any level. -/
def bare : ILType → ILType
  | .cmodReqd _ type | .cmodOpt _ type | .pinned type => bare type
  | .byRef refType => .byRef (bare refType)
  | .ptr refType => .ptr (bare refType)
  | .array elemType size lowBound => .array (bare elemType) size lowBound
  | .arrayContinue elemType size lowBound => .arrayContinue (bare elemType) size lowBound
  | .signature kind numGen retType params => .signature kind numGen (bare retType) (bareAll params)
  | type => type

def bareAll : List ILType → List ILType
  | [] => []
  | type :: types => bare type :: bareAll types

end

def lowBits (hash : ILUInt64) : BitVec 5 := hash.setWidth 5

def kindBits (kind : ILUInt16) : BitVec 5 := lowBits (kind.signExtend 64)

mutual

/-- The kinds of the prefixes that the hash comes by, added up modulo 32. -/
def prefixSum : ILType → BitVec 5
  | .cmodReqd _ type => kindBits ilTypeComplexCmodReqd + prefixSum type
  | .cmodOpt _ type => kindBits ilTypeComplexCmodOpt + prefixSum type
  | .pinned refType => kindBits ilTypeComplexPinned + prefixSum refType
  | .byRef type | .ptr type | .array type _ _ | .arrayContinue type _ _ => prefixSum type
  | .signature kind _ retType params =>
    if hashesParams kind then prefixSum retType + prefixSumAll params else 0
  | _ => 0

def prefixSumAll : List ILType → BitVec 5
  | [] => 0
  | type :: types => prefixSum type + prefixSumAll types

end

theorem lowBits_hashWord (start word : ILUInt64) :
    lowBits (hashWord start word) = lowBits start + lowBits word := by
  have hshift : (start <<< 5).setWidth 5 = 0 := by
    ext i hi
    simp
  unfold lowBits hashWord
  rw [BitVec.setWidth_add _ _ (by decide), BitVec.setWidth_add _ _ (by decide), hshift]
  exact congrArg (· + word.setWidth 5) (BitVec.zero_add _)

/-- How far one hash is ahead of another, in the bits that only add up. -/
def Ahead (d : BitVec 5) (hash hash' : ILUInt64) : Prop := lowBits hash = lowBits hash' + d

namespace Ahead

variable {d : BitVec 5} {hash hash' : ILUInt64}

theorem word (h : Ahead d hash hash') (w : ILUInt64) :
    Ahead d (hashWord hash w) (hashWord hash' w) := by
  unfold Ahead at h ⊢
  rw [lowBits_hashWord, lowBits_hashWord, h, add_right_comm]

theorem none (h : Ahead d hash hash') : Ahead (d + 0) hash hash' := by
  rwa [add_zero]

theorem mark (h : Ahead d hash hash') (kind : ILUInt16) :
    Ahead (d + kindBits kind) (hashKind hash kind) hash' := by
  unfold Ahead at h ⊢
  unfold hashKind kindBits
  rw [lowBits_hashWord, h, add_assoc]

theorem string (h : Ahead d hash hash') (str : List ILUInt8) :
    Ahead d (ilHashString hash str) (ilHashString hash' str) := by
  induction str generalizing hash hash' with
  | nil => exact h
  | cons c str ih => exact ih (h.word (c.signExtend 64))

theorem «class» (h : Ahead d hash hash') (info : ClassId) :
    Ahead d (hashClass ct hash info) (hashClass ct hash' info) := by
  unfold hashClass
  cases (ct.className info).nameSpace with
  | none => exact h.string _
  | some nameSpace => exact ((h.string nameSpace).string _).string _

end Ahead

mutual

theorem ahead_bare {d : BitVec 5} {hash hash' : ILUInt64} (h : Ahead d hash hash') :
    ∀ type, Ahead (d + prefixSum type) (hashType ct hash type) (hashType ct hash' (bare type))
  | .invalid => h.none
  | .primitive elem => (h.word _).none
  | .class info | .valueType info => (h.class info).none
  | .byRef type => ahead_bare (h.word _) type
  | .ptr type => ahead_bare (h.word _) type
  | .array type _ _ => ahead_bare (h.word _) type
  | .arrayContinue type _ _ => ahead_bare (h.word _) type
  | .cmodReqd _ type => by
    unfold prefixSum
    rw [← add_assoc]
    exact ahead_bare (h.mark _) type
  | .cmodOpt _ type => by
    unfold prefixSum
    rw [← add_assoc]
    exact ahead_bare (h.mark _) type
  | .pinned type => by
    unfold prefixSum
    rw [← add_assoc]
    exact ahead_bare (h.mark _) type
  | .sentinel => (h.word _).none
  | .var num => ((h.word _).word _).none
  | .mvar num => ((h.word _).word _).none
  | .signature kind numGen retType params => by
    unfold prefixSum bare hashType
    split_ifs with hkind
    · rw [← add_assoc]
      exact aheadAll_bare (ahead_bare (h.word _) retType) params
    · exact (h.word _).none

theorem aheadAll_bare {d : BitVec 5} {hash hash' : ILUInt64} (h : Ahead d hash hash') :
    ∀ types, Ahead (d + prefixSumAll types) (hashTypes ct hash types)
      (hashTypes ct hash' (bareAll types))
  | [] => h.none
  | type :: types => by
    unfold prefixSumAll
    rw [← add_assoc]
    exact aheadAll_bare (ahead_bare h type) types

end

theorem bare_ilTypeStripPrefixes (type : ILType) : bare (ilTypeStripPrefixes type) = bare type := by
  fun_induction ilTypeStripPrefixes type with
  | case1 _ type ih => exact ih
  | case2 _ type ih => exact ih
  | case3 type ih => exact ih
  | case4 type => rfl

theorem hashTypes_bareAll {types types2 : List ILType}
    (h : List.Forall₂ (fun type type2 =>
      ∀ start, hashType ct start (bare type) = hashType ct start (bare type2)) types types2)
    (start : ILUInt64) :
    hashTypes ct start (bareAll types) = hashTypes ct start (bareAll types2) := by
  induction h generalizing start with
  | nil => rfl
  | cons h _ ih =>
    unfold bareAll hashTypes
    rw [h, ih]

/-- A hash that left the prefixes out would be the same for identical types. -/
theorem hashType_bare {type type2 : ILType} (h : typeIdenticalIn ct type type2 = true) :
    ∀ start, hashType ct start (bare type) = hashType ct start (bare type2) := by
  refine typeIdentical_induction (motive := fun type type2 =>
    ∀ start, hashType ct start (bare type) = hashType ct start (bare type2)) ?_ h
  intro type type2 halike start
  rw [← bare_ilTypeStripPrefixes type, ← bare_ilTypeStripPrefixes type2]
  generalize ilTypeStripPrefixes type = stripped at halike ⊢
  generalize ilTypeStripPrefixes type2 = stripped2 at halike ⊢
  cases halike with
  | invalid | primitive | sentinel | var | mvar => rfl
  | «class» h => exact hashClass_congr (ct.className_of_classIdentical h) start
  | valueType h => exact hashClass_congr (ct.className_of_classIdentical h) start
  | byRef h => exact h _
  | ptr h => exact h _
  | array _ _ h => exact h _
  | arrayContinue _ _ h => exact h _
  | signature hkind hnumGen hret hparams =>
    unfold bare hashType
    rw [hret, hashTypes_bareAll hparams]

theorem prefixSum_eq_of_hash_eq {type type2 : ILType} (h : typeIdenticalIn ct type type2 = true)
    (hhash : ilTypeHash ct type = ilTypeHash ct type2) : prefixSum type = prefixSum type2 := by
  have hzero : Ahead 0 (0 : ILUInt64) 0 := rfl
  have hahead : Ahead (0 + prefixSum type) (hashType ct 0 type) (hashType ct 0 (bare type)) :=
    ahead_bare hzero type
  have hahead2 : Ahead (0 + prefixSum type2) (hashType ct 0 type2) (hashType ct 0 (bare type2)) :=
    ahead_bare hzero type2
  rw [← hashType_bare h, ← show hashType ct 0 type = hashType ct 0 type2 from hhash] at hahead2
  have hsum := hahead.symm.trans hahead2
  rw [zero_add, zero_add] at hsum
  exact add_left_cancel hsum

/-! ### Runs of the table -/

def Distinct (ct : ClassTable) (types : Multiset ILType) : Prop :=
  types.Pairwise fun type type2 => ¬ typeIdenticalIn ct type type2 = true

theorem Distinct.cons {types : Multiset ILType} {type : ILType} (h : Distinct ct types)
    (hnew : ∀ elem ∈ types, ¬ typeIdenticalIn ct elem type = true) :
    Distinct ct (type ::ₘ types) := by
  obtain ⟨entries, rfl, hentries⟩ := h
  refine ⟨type :: entries, rfl, List.pairwise_cons.2 ⟨fun elem helem hident => ?_, hentries⟩⟩
  exact hnew elem helem (typeIdentical_symm ct.classIdentical_symm hident)

theorem Distinct.not_identical {types : Multiset ILType} (h : Distinct ct types)
    {type type2 : ILType} (htype : type ∈ types) (htype2 : type2 ∈ types) (hne : type ≠ type2) :
    ¬ typeIdenticalIn ct type type2 = true := by
  have hsymm : Std.Symm fun type type2 => ¬ typeIdenticalIn ct type type2 = true :=
    ⟨fun _ _ hnot hident => hnot (typeIdentical_symm ct.classIdentical_symm hident)⟩
  exact Multiset.Pairwise.forall h htype htype2 hne

/-- One request, when the prefixes of the type agree with those of the identical entries. -/
theorem ilTypeToSynthetic_spec {table : ILHashTable ILType} {chains : Nat → List EntryRef}
    (h : table.Inv (synHashCompute ct) chains) (hdistinct : Distinct ct table.contents)
    {type : ILType} (hsame : ∀ elem ∈ table.contents, typeIdenticalIn ct elem type = true →
      samePrefixes elem type = true) :
    ∃ table' info chains', ilTypeToSynthetic ct table type = some (table', info) ∧
      table'.Inv (synHashCompute ct) chains' ∧ Distinct ct table'.contents ∧
      ∀ elem ∈ table'.contents, elem ∈ table.contents ∨ elem = type := by
  have hhashes : ∀ elem ∈ table.contents, typeIdenticalIn ct elem type = true →
      synHashCompute ct elem = synHashCompute ct type := by
    intro elem helem hident
    have hhash := hashType_eq_of_samePrefixes elem type hident (hsame elem helem hident) 0
    exact congrArg BitVec.toNat hhash
  obtain ⟨found, hfind, _, hnone⟩ := h.find type (synHashCompute ct) (typeIdenticalIn ct) hhashes
  unfold ilTypeToSynthetic
  rw [hfind]
  cases found with
  | some info => exact ⟨table, info, chains, rfl, h, hdistinct, fun elem helem => .inl helem⟩
  | none =>
    obtain ⟨chains', h', hcontents⟩ := h.add type
    refine ⟨_, type, chains', rfl, h', ?_, ?_⟩
    · rw [hcontents]
      exact hdistinct.cons (hnone rfl)
    · intro elem helem
      rw [hcontents, Multiset.mem_cons] at helem
      exact helem.symm

theorem syntheticRun_spec {types : List ILType} {table : ILHashTable ILType}
    {chains : Nat → List EntryRef} (h : table.Inv (synHashCompute ct) chains)
    (hdistinct : Distinct ct table.contents)
    (hsame : ∀ type type2, (type ∈ table.contents ∨ type ∈ types) → type2 ∈ types →
      typeIdenticalIn ct type type2 = true → samePrefixes type type2 = true) :
    ∃ table', syntheticRun ct table types = some table' ∧ Distinct ct table'.contents := by
  induction types generalizing table chains with
  | nil => exact ⟨table, rfl, hdistinct⟩
  | cons type types ih =>
    obtain ⟨table', info, chains', hstep, h', hdistinct', hmem⟩ :=
      ilTypeToSynthetic_spec h hdistinct fun elem helem =>
        hsame elem type (.inl helem) List.mem_cons_self
    unfold syntheticRun
    rw [hstep]
    refine ih h' hdistinct' fun elem type2 helem htype2 => hsame elem type2 ?_ (.tail _ htype2)
    obtain helem | helem := helem
    · exact (hmem elem helem).imp_right fun (heq : elem = type) => List.mem_cons.2 (.inl heq)
    · exact .inr (.tail _ helem)

end Pnet.Image
