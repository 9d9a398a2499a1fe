import Mathlib.Data.List.Pairwise
import Pnet.Cscc.CBitFieldDeclare

/-! Where the bits of bit fields are, over all the declarations of a structure. -/
namespace Pnet.Cscc
open Pnet.Image

/-! ### Bits that are taken twice -/

/-- The bit fields of one storage field do not overlap, and increase in the order that they are
declared in. -/
def Members.Increasing (m : Members) : Prop :=
  m.allotments.Pairwise fun a b => a.storage = b.storage → a.limit ≤ b.start.toNat

def CClass.lastName (c : CClass) : Option (List ILUInt8) := c.fields.getLast?.map CField.name

/-- The unnamed bit field that the members end with is the last that its storage field has. -/
def Trailing (c : CClass) (m : Members) : Prop :=
  m.afterUnnamed = true → ∃ before a, m.allotments = before ++ [a] ∧ a.name = none ∧
    c.lastName = some a.storage ∧ c.bitFieldLeftOver a.storage = a.start

/-- The last field has unnamed bits only when the last member is unnamed. -/
def Reserved (c : CClass) (m : Members) : Prop :=
  ∀ a ∈ m.allotments, a.name = none → c.lastName = some a.storage → m.afterUnnamed = true

/-- A bit field that goes where the unnamed bit field before it is. -/
def Members.Reuses (m : Members) (c : CClass) : Declaration → Prop
  | .field .. => False
  | .bitField _ type numBits maxBits =>
    m.afterUnnamed = true ∧ (c.searchStorage type numBits maxBits).isFound = true

section Steps

variable {c c' : CClass} {m m' : Members} {q : CProgram} {d : Declaration}

@[simp] theorem lastName_addField (field : CField) :
    (c.addField field).lastName = some field.name := by
  simp [CClass.lastName]

@[simp] theorem lastName_bitFieldAdd (name : Option (List ILUInt8)) (storage : List ILUInt8)
    (posn numBits : ILUInt32) : (c.bitFieldAdd name storage posn numBits).lastName = c.lastName := by
  simp [CClass.lastName]

theorem lastName_concat {before : List CField} {field : CField}
    (h : c.fields = before ++ [field]) : c.lastName = some field.name := by
  simp [CClass.lastName, h]

theorem Trailing.declares (hm : Holds c m) (h : Trailing c m) (hstep : Declares c m q d c' m') :
    Trailing c' m' := by
  cases hstep with
  | error name type => exact h
  | field type field hstatic => exact fun hfalse => absurd hfalse Bool.false_ne_true
  | reuse name type numBits maxBits before field hfields =>
    intro hnone
    rw [Option.isNone_iff_eq_none] at hnone
    subst hnone
    exact ⟨_, _, rfl, rfl, lastName_concat hfields, rfl⟩
  | fresh name numBits maxBits field hname =>
    intro hnone
    rw [Option.isNone_iff_eq_none] at hnone
    subst hnone
    refine ⟨_, _, rfl, rfl, lastName_addField field, ?_⟩
    rw [hname]
    exact hm.leftOver_next

theorem Declares.increasing (hstep : Declares c m q d c' m') (h : m'.Increasing) :
    m.Increasing := by
  cases hstep with
  | error | field => exact h
  | reuse | fresh => exact (List.pairwise_append.1 h).1

theorem Declares.not_reuses (hm : Holds c m) (htrail : Trailing c m)
    (hstep : Declares c m q d c' m') (h : m'.Increasing) : ¬m.Reuses c d := by
  cases hstep with
  | error | field => exact id
  | reuse name type numBits maxBits before field hfields =>
    rintro ⟨hafter, -⟩
    obtain ⟨front, a, ha, -, hlast, hstart⟩ := htrail hafter
    have hmem : a ∈ m.allotments := by
      rw [ha]
      exact List.mem_append_right _ (List.mem_singleton_self _)
    rw [lastName_concat hfields] at hlast
    have hname := Option.some.inj hlast
    have hle : a.limit ≤ (c.bitFieldLeftOver field.name).toNat :=
      (List.pairwise_append.1 h).2.2 a hmem _ (List.mem_singleton_self _) hname.symm
    have hpos := (hm.placed a hmem).size_pos
    rw [hname, hstart, Allotment.limit] at hle
    omega
  | fresh name numBits maxBits field hname hstatic hfound =>
    rintro ⟨-, hsearch⟩
    rw [hfound] at hsearch
    cases hsearch

theorem Declares.reserved (hm : Holds c m) (hd : d.Legal) (hstep : Declares c m q d c' m')
    (hinc : m.Increasing) (hres : Reserved c m) (hno : ¬m.Reuses c d) :
    m'.Increasing ∧ Reserved c' m' := by
  cases hstep with
  | error name type => exact ⟨hinc, hres⟩
  | field type field hstatic =>
    refine ⟨hinc, fun a ha _ hlast => ?_⟩
    rw [lastName_addField] at hlast
    obtain ⟨other, -, hstorage, hname, -⟩ := (hm.placed a ha).storage
    rw [CField.isStorage, hname, ← Option.some.inj hlast, IsIdentifier.not_isPrefixOf hd,
      Bool.and_false] at hstorage
    cases hstorage
  | reuse name type numBits maxBits before field hfields hstorage hsame hspace hfound =>
    have hafter : ¬m.afterUnnamed = true := fun hafter => hno ⟨hafter, hfound⟩
    have hnamed : ∀ a ∈ m.allotments, a.storage = field.name → a.name.isSome = true := by
      intro a ha hname
      by_contra hnone
      rw [Option.not_isSome_iff_eq_none] at hnone
      exact hafter (hres a ha hnone (by rw [lastName_concat hfields, hname]))
    constructor
    · refine List.pairwise_append.2 ⟨hinc, List.pairwise_singleton _ _, fun a ha b hb hname => ?_⟩
      rw [List.mem_singleton] at hb
      subst hb
      have hle := hm.limit_le_leftOver ha (hnamed a ha hname)
      rwa [hname] at hle
    · intro a ha hnone hlast
      rw [lastName_bitFieldAdd] at hlast
      obtain ha | ha := List.mem_append.1 ha
      · exact absurd (hres a ha hnone hlast) hafter
      · rw [List.mem_singleton] at ha
        subst ha
        exact Option.isNone_iff_eq_none.2 hnone
  | fresh name numBits maxBits field hname hstatic hfound =>
    have hapart : ∀ a ∈ m.allotments, a.storage ≠ field.name := by
      rw [hname]
      exact fun a ha => hm.storage_ne_next ha
    constructor
    · refine List.pairwise_append.2 ⟨hinc, List.pairwise_singleton _ _, fun a ha b hb hsame => ?_⟩
      rw [List.mem_singleton] at hb
      subst hb
      exact absurd hsame (hapart a ha)
    · intro a ha hnone hlast
      rw [lastName_bitFieldAdd, lastName_addField] at hlast
      obtain ha | ha := List.mem_append.1 ha
      · exact absurd (Option.some.inj hlast).symm (hapart a ha)
      · rw [List.mem_singleton] at ha
        subst ha
        exact Option.isNone_iff_eq_none.2 hnone

end Steps

/-! ### Looking up a name -/

/-- What is found for the name of a bit field is what was allotted to it. -/
def Members.Found (m : Members) (info : ClassId) : Prop :=
  ∀ a ∈ m.allotments, ∀ name, a.name = some name →
    ∃ field, m.program.cTypeLookupField info name = some (field, a.start, a.size) ∧
      field.name = a.storage

/-- The names of the bit fields are apart from each other and from those of the other fields. -/
def Members.Apart (m : Members) : Prop :=
  m.bitFieldNames.Nodup ∧ ∀ name ∈ m.bitFieldNames, name ∉ m.fieldNames

theorem eq_of_nodup_filterMap {α β : Type} {f : α → Option β} {l : List α} {a b : α} {x : β}
    (hnodup : (l.filterMap f).Nodup) (ha : a ∈ l) (hb : b ∈ l) (hfa : f a = some x)
    (hfb : f b = some x) : a = b := by
  by_contra hne
  have hpairs := List.pairwise_filterMap.1 hnodup
  have hsymm : Std.Symm fun a b => ∀ x, f a = some x → ∀ y, f b = some y → x ≠ y :=
    ⟨fun _ _ hxy x hx y hy heq => hxy y hy x hx heq.symm⟩
  exact hpairs.forall ha hb hne x hfa x hfb rfl

namespace Holds

variable {m : Members} {info : ClassId} (h : Holds (m.program.cls info) m)
include h

theorem instanceFields_eq : (m.program.cls info).instanceFields = (m.program.cls info).fields :=
  List.filter_eq_self.2 fun field hfield => by rw [h.notStatic field hfield]; rfl

theorem filterMap_readBitField : (m.program.cls info).attributes.filterMap readBitField =
    m.allotments.filterMap Allotment.value? := by
  rw [h.attributes, List.filterMap_map]
  exact (List.filterMap_congr fun v hv => readBitField_blob (h.readable v hv).1).trans
    (List.filterMap_some)

theorem isStorage_of_mem {name : List ILUInt8} (hname : name ∉ m.fieldNames) {field : CField}
    (hfield : field ∈ (m.program.cls info).fields) (heq : field.name = name) :
    field.isStorage = true := by
  by_contra hne
  refine hname ?_
  rw [← h.others, ← heq]
  exact List.mem_map_of_mem (List.mem_filter.2 ⟨hfield, by simpa using hne⟩)

/-- An ordinary field hides a bit field of its name. -/
theorem lookup_ordinary {name : List ILUInt8} (hname : name ∈ m.fieldNames) :
    ∃ field, m.program.cTypeLookupField info name = some (field, 0, 0) := by
  rw [← h.others] at hname
  obtain ⟨field, hfield, heq⟩ := List.mem_map.1 hname
  have hsome : ((m.program.cls info).fields.find? fun field => field.name == name).isSome = true :=
    List.find?_isSome.2 ⟨field, (List.mem_filter.1 hfield).1, by simpa using heq⟩
  obtain ⟨found, hfound⟩ := Option.isSome_iff_exists.1 hsome
  refine ⟨found, ?_⟩
  rw [CProgram.cTypeLookupField, h.instanceFields_eq]
  simp only [hfound]

/-- A name that is only that of bit fields is looked up as one of them. -/
theorem lookup_bitField {a : Allotment} {name : List ILUInt8} (ha : a ∈ m.allotments)
    (hname : a.name = some name) (hordinary : name ∉ m.fieldNames) :
    ∃ b ∈ m.allotments, b.name = some name ∧ ∃ field,
      m.program.cTypeLookupField info name = some (field, b.start, b.size) ∧
        field.name = b.storage := by
  have hident := (h.placed a ha).identifier name hname
  have hnone : ((m.program.cls info).fields.find? fun field => field.name == name) = none := by
    refine List.find?_eq_none.2 fun field hfield heq => ?_
    have hstorage := h.isStorage_of_mem hordinary hfield (eq_of_beq heq)
    rw [CField.isStorage, eq_of_beq heq, hident.not_isPrefixOf, Bool.and_false] at hstorage
    cases hstorage
  have hsome : ((m.allotments.filterMap Allotment.value?).find? fun value =>
      value.fieldName == name).isSome = true :=
    List.find?_isSome.2 ⟨_, List.mem_filterMap.2 ⟨a, ha, congrArg (Option.map _) hname⟩,
      beq_self_eq_true name⟩
  obtain ⟨value, hvalue⟩ := Option.isSome_iff_exists.1 hsome
  obtain ⟨b, hb, hbvalue⟩ := List.mem_filterMap.1 (List.mem_of_find?_eq_some hvalue)
  obtain ⟨bname, hbname, rfl⟩ := Option.map_eq_some_iff.1 hbvalue
  have heq : bname = name :=
    eq_of_beq (List.find?_some (p := fun value : BitFieldValue => value.fieldName == name) hvalue)
  obtain ⟨storage, hstorage, -, hstorageName, -⟩ := (h.placed b hb).storage
  have hsome' : ((m.program.cls info).fields.find? fun field => field.name == b.storage).isSome =
      true := List.find?_isSome.2 ⟨storage, hstorage, by simpa using hstorageName⟩
  obtain ⟨field, hfield⟩ := Option.isSome_iff_exists.1 hsome'
  refine ⟨b, hb, by rw [hbname, heq], field, ?_, eq_of_beq
    (List.find?_some (p := fun field : CField => field.name == b.storage) hfield)⟩
  rw [CProgram.cTypeLookupField, h.instanceFields_eq, h.filterMap_readBitField]
  simp only [hnone, hvalue, hfield, Option.map_some]

/-- Apart names are found; the same name twice is found once. -/
theorem found_iff (hinc : m.Increasing) : m.Found info ↔ m.Apart := by
  constructor
  · intro hfound
    constructor
    · refine List.pairwise_filterMap.2 (List.Pairwise.imp_of_mem (fun ha hb hlimit => ?_) hinc)
      rintro name hname _ hname' rfl
      obtain ⟨field, hfield, hstorage⟩ := hfound _ ha name hname
      obtain ⟨field', hfield', hstorage'⟩ := hfound _ hb name hname'
      rw [hfield, Option.some.injEq, Prod.mk.injEq, Prod.mk.injEq] at hfield'
      obtain ⟨heq, hstart, -⟩ := hfield'
      have hle := hlimit (by rw [← hstorage, heq, hstorage'])
      have hpos := (h.placed _ ha).size_pos
      rw [← hstart, Allotment.limit] at hle
      omega
    · intro name hname hordinary
      obtain ⟨a, ha, haname⟩ := List.mem_filterMap.1 hname
      obtain ⟨field, hfield, -⟩ := hfound a ha name haname
      obtain ⟨other, hother⟩ := h.lookup_ordinary hordinary
      have hpos := (h.placed a ha).size_pos
      rw [hother, Option.some.injEq, Prod.mk.injEq, Prod.mk.injEq] at hfield
      rw [← hfield.2.2] at hpos
      exact absurd hpos (lt_irrefl _)
  · rintro ⟨hnodup, hapart⟩ a ha name hname
    have hmem : name ∈ m.bitFieldNames := List.mem_filterMap.2 ⟨a, ha, hname⟩
    obtain ⟨b, hb, hbname, hlookup⟩ := h.lookup_bitField ha hname (hapart name hmem)
    rwa [← eq_of_nodup_filterMap hnodup ha hb hname hbname] at hlookup

end Holds

/-! ### Runs -/

/-- A bit field is never put where the unnamed bit field before it is. -/
def Members.NoReuse (fuel : Nat) (info : ClassId) : Members → List Declaration → Prop
  | _, [] => True
  | m, d :: ds => ¬m.Reuses (m.program.cls info) d ∧
      match m.declare fuel info d with
      | some m' => Members.NoReuse fuel info m' ds
      | none => True

/-- What is declared of a bit field: its name, its width and the width of its type. -/
def Declaration.bits? : Declaration → Option (Option (List ILUInt8) × ILUInt32 × ILUInt32)
  | .field .. => none
  | .bitField name _ numBits maxBits => some (name, numBits, maxBits)

def Allotment.bits (a : Allotment) : Option (List ILUInt8) × ILUInt32 × ILUInt32 :=
  (a.name, a.size, a.width)

/-- Every bit field has a range within a storage field, apart from and after those of the bit fields
before it, and its name is found there. -/
structure Members.Allotted (m : Members) (info : ClassId) (ds : List Declaration) : Prop where
  every : m.allotments.map Allotment.bits = ds.filterMap Declaration.bits?
  nodup : (((m.program.cls info).fields.filter CField.isStorage).map CField.name).Nodup
  inside : ∀ a ∈ m.allotments, a.limit ≤ a.width.toNat ∧
    ∃ field ∈ (m.program.cls info).fields, field.isStorage = true ∧ field.name = a.storage ∧
      bitFieldMaxSize field.signature = some a.width
  increasing : m.Increasing
  found : m.Found info

theorem Declares.map_bits {c c' : CClass} {m m' : Members} {q : CProgram} {d : Declaration}
    (h : Declares c m q d c' m') : m'.allotments.map Allotment.bits =
      m.allotments.map Allotment.bits ++ [d].filterMap Declaration.bits? := by
  cases h <;> simp [Allotment.bits, Declaration.bits?]

section Runs

variable {fuel : Nat} {info : ClassId} {m t : Members} {ds : List Declaration}

/-- The invariant of a run. -/
structure Ready (info : ClassId) (m : Members) (left : Nat) : Prop where
  info_lt : info < m.program.classes.length
  holds : Holds (m.program.cls info) m
  trailing : Trailing (m.program.cls info) m
  length_lt : (m.program.cls info).fields.length + left < 2 ^ 31

theorem Ready.declare {m' : Members} {d : Declaration} {left : Nat} (h : Ready info m (left + 1))
    (hd : d.Legal) (hstep : m.declare fuel info d = some m') :
    Ready info m' left ∧
      Declares (m.program.cls info) m m'.program d (m'.program.cls info) m' := by
  obtain ⟨hinfo, hdeclares⟩ := declares_of_declare hd h.info_lt hstep
  have hlen := h.length_lt
  have hle := hdeclares.length_le
  exact ⟨⟨hinfo, h.holds.declares hd (by omega) hdeclares, h.trailing.declares h.holds hdeclares,
    by omega⟩, hdeclares⟩

/-- The bits of no two bit fields overlap exactly when none is put where an unnamed one is. -/
theorem Ready.run (h : Ready info m ds.length) (hlegal : ∀ d ∈ ds, d.Legal)
    (hrun : m.declareAll fuel info ds = some t) :
    Holds (t.program.cls info) t ∧
      t.allotments.map Allotment.bits =
        m.allotments.map Allotment.bits ++ ds.filterMap Declaration.bits? ∧
      (t.Increasing → m.Increasing ∧ m.NoReuse fuel info ds) ∧
      (m.Increasing → Reserved (m.program.cls info) m → m.NoReuse fuel info ds → t.Increasing) := by
  induction ds generalizing m with
  | nil =>
    cases hrun
    exact ⟨h.holds, (List.append_nil _).symm, fun hinc => ⟨hinc, trivial⟩, fun hinc _ _ => hinc⟩
  | cons d ds ih =>
    obtain ⟨hd, hlegal⟩ := List.forall_mem_cons.1 hlegal
    rw [Members.declareAll, List.foldlM_cons] at hrun
    obtain ⟨m', hstep, hrun⟩ := Option.bind_eq_some_iff.1 hrun
    obtain ⟨hready, hdeclares⟩ := h.declare hd hstep
    obtain ⟨hholds, hbits, hback, hforth⟩ := ih hready hlegal hrun
    refine ⟨hholds, ?_, fun hinc => ?_, fun hinc hres hno => ?_⟩
    · rw [hbits, hdeclares.map_bits, List.append_assoc, ← List.filterMap_append,
        List.singleton_append]
    · obtain ⟨hinc', hno⟩ := hback hinc
      refine ⟨hdeclares.increasing hinc', hdeclares.not_reuses h.holds h.trailing hinc', ?_⟩
      rwa [hstep]
    · obtain ⟨hnot, hno⟩ := hno
      rw [hstep] at hno
      obtain ⟨hinc', hres'⟩ := hdeclares.reserved h.holds hd hinc hres hnot
      exact hforth hinc' hres' hno

end Runs

/-- An empty structure is ready for its members. -/
theorem ready_empty {p : CProgram} {info : ClassId} {left : Nat} (hinfo : info < p.classes.length)
    (hfields : (p.cls info).fields = []) (hattributes : (p.cls info).attributes = [])
    (hlen : left < 2 ^ 31) : Ready info { program := p } left := by
  refine ⟨hinfo, ⟨?_, ?_, ?_, ?_, ?_, ?_, ?_⟩, ?_, by simpa [hfields] using hlen⟩
  all_goals simp [hfields, hattributes, Trailing]

def structS : CProgram := ⟨[{ name := chars "S", kind := some .struct }]⟩

/-- `struct S { int a : 3; int : 5; int x; int b : 4; };` -/
def separatedMembers : List Declaration :=
  [.bitField (some (chars "a")) (.primitive ElemType.i4) 3 32,
    .bitField none (.primitive ElemType.i4) 5 32,
    .field (chars "x") (.primitive ElemType.i4),
    .bitField (some (chars "b")) (.primitive ElemType.i4) 4 32]

/-- `struct S { int a : 3; int : 5; int b : 4; };` -/
def paddedMembers : List Declaration :=
  [.bitField (some (chars "a")) (.primitive ElemType.i4) 3 32,
    .bitField none (.primitive ElemType.i4) 5 32,
    .bitField (some (chars "b")) (.primitive ElemType.i4) 4 32]

instance (name : List ILUInt8) : Decidable (IsIdentifier name) :=
  decidable_of_iff (name.length < 2 ^ 31 ∧ name.head? ≠ some 0x2E)
    ⟨fun h => ⟨h.1, h.2⟩, fun h => ⟨h.1, h.2⟩⟩

end Pnet.Cscc
