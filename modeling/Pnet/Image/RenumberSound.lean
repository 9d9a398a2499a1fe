import Pnet.Image.RenumberCompact

/-! After `SortClasses` and `_ILCompactReferences` the tables that they rewrite are dense, and the
rows of each class and of each method follow each other in the order of their owners. -/
namespace Pnet.Image.Renumber

variable {I : Type}

namespace ILImage

variable {image : ILImage I}

/-- Every definition of a member is in the list of a class of the image. -/
def Belongs (image : ILImage I) : Prop :=
  ∀ table ∈ [Table.field, .method, .property, .event], ∀ member ∈ image.rows table,
    ∃ info ∈ image.rows .typeDef, member ∈ image.members info

/-! ### The rows of an image that is built -/

theorem mem_memberRows {table : Table} {member item : I} :
    (table, item) ∈ image.memberRows member ↔
      item = member ∧ table ∈ [Table.field, .method, .property, .event] ∧
          image.isKind member .memberRef = false ∧ (image.memberKind member).table = table ∨
        table = .param ∧ image.isKind member .memberRef = false ∧
          image.memberKind member = .method ∧ item ∈ image.parameters member := by
  rw [memberRows]
  by_cases href : image.isKind member .memberRef
  · simp [href]
  · cases hkind : image.memberKind member <;>
      simp only [href, MemberKind.table, List.mem_cons, List.not_mem_nil, or_false] <;> cases table <;> simp [eq_comm]

section Numbered

variable (hnumbered : image.Numbered)
include hnumbered

theorem mem_tokenData_of_mem_memberRows {info member item : I} {table : Table}
    (hmember : member ∈ image.members info) (h : (table, item) ∈ image.memberRows member) :
    table.Definition ∧ some item ∈ image.tokenData table := by
  rcases mem_memberRows.mp h with ⟨rfl, htable, href, rfl⟩ | ⟨rfl, -, -, hparam⟩
  · rcases hnumbered.lists.member hmember with hkind | ⟨hne, hrow⟩
    · rw [href] at hkind
      cases hkind
    · exact ⟨(BuildOp.table_definition hne).1, hrow⟩
  · exact ⟨by simp [Table.Definition], (hnumbered.lists.param hparam).2⟩

/-- Two members do not share a row. -/
theorem member_unique {member member' item : I} {table : Table}
    (h : (table, item) ∈ image.memberRows member) (h' : (table, item) ∈ image.memberRows member') :
    member = member' := by
  rcases mem_memberRows.mp h with ⟨rfl, htable, -, -⟩ | ⟨rfl, -, -, hparam⟩
  · rcases mem_memberRows.mp h' with ⟨rfl, -, -, -⟩ | ⟨rfl, -, -, -⟩
    · rfl
    · simp at htable
  · rcases mem_memberRows.mp h' with ⟨-, htable, -, -⟩ | ⟨-, -, -, hparam'⟩
    · simp at htable
    · exact hnumbered.lists.param_owner hparam hparam'

theorem memberRows_nodup (member : I) : (image.memberRows member).Nodup := by
  rw [memberRows]
  split
  · exact List.nodup_nil
  · split
    · rw [List.nodup_cons]
      refine ⟨by simp, ?_⟩
      exact (hnumbered.lists.params_nodup member).map fun _ _ h => (Prod.mk.inj h).2
    all_goals simp

theorem allRows_nodup : image.allRows.Nodup := by
  refine List.nodup_flatMap.mpr ⟨?_, ?_⟩
  · intro info _
    refine List.nodup_flatMap.mpr ⟨fun member _ => memberRows_nodup hnumbered member, ?_⟩
    apply (hnumbered.lists.members_nodup info).pairwise_of_forall_ne
    intro member _ member' _ hne
    rintro ⟨table, item⟩ h h'
    exact hne (member_unique hnumbered h h')
  · apply (hnumbered.rows.nodup .typeDef).pairwise_of_forall_ne
    intro info _ info' _ hne
    rintro ⟨table, item⟩ h h'
    obtain ⟨member, hmember, hrow⟩ := List.mem_flatMap.mp h
    obtain ⟨member', hmember', hrow'⟩ := List.mem_flatMap.mp h'
    obtain rfl := member_unique hnumbered hrow hrow'
    exact hne (hnumbered.lists.member_owner hmember hmember')

theorem mem_tokenData_of_mem_allRows {table : Table} {item : I}
    (h : (table, item) ∈ image.allRows) : table.Definition ∧ some item ∈ image.tokenData table := by
  obtain ⟨info, -, hinfo⟩ := List.mem_flatMap.mp h
  obtain ⟨member, hmember, hrow⟩ := List.mem_flatMap.mp hinfo
  exact mem_tokenData_of_mem_memberRows hnumbered hmember hrow

theorem plan_allRows (hsmall : image.Small) : Plan image image.allRows := by
  have hlength : ∀ table, (pick table image.allRows).length ≤ (image.tokenData table).length := by
    intro table
    have hsubset : pick table image.allRows ⊆ image.rows table := by
      intro item hitem
      exact mem_rows.mpr (mem_tokenData_of_mem_allRows hnumbered (mem_pick.mp hitem)).2
    calc (pick table image.allRows).length
        ≤ (image.rows table).length :=
          ((pick_nodup (allRows_nodup hnumbered)).subperm hsubset).length_le
      _ ≤ (image.tokenData table).length := List.reduceOption_length_le _
  refine ⟨fun table => lt_of_le_of_lt (hlength table) (hsmall table), ?_, allRows_nodup hnumbered,
    hlength⟩
  intro table item h
  obtain ⟨htable, hitem⟩ := mem_tokenData_of_mem_allRows hnumbered h
  exact hnumbered.rows.isKind hsmall htable hitem

/-- Every row of the tables is given out again. -/
theorem perm_pick_allRows (hsmall : image.Small) (hbelongs : image.Belongs) {table : Table}
    (htable : table ∈ [Table.field, .method, .param, .property, .event]) :
    (pick table image.allRows).Perm (image.rows table) := by
  have hmember : ∀ {table : Table}, table ∈ [Table.field, .method, .property, .event] →
      ∀ {member : I}, member ∈ image.rows table → ∃ info ∈ image.rows .typeDef,
        member ∈ image.members info ∧ image.isKind member .memberRef = false ∧
          (image.memberKind member).table = table := by
    intro table htable member hrow
    obtain ⟨info, hinfo, hmember⟩ := hbelongs table htable member hrow
    have hdefinition : table.Definition := by
      fin_cases htable <;> simp [Table.Definition]
    have hkind := hnumbered.rows.isKind hsmall hdefinition (mem_rows.mp hrow)
    have href : image.isKind member .memberRef = false := by
      apply Bool.eq_false_iff.mpr
      intro href
      exact hdefinition.2 (eq_of_isKind hkind href)
    refine ⟨info, hinfo, hmember, href, ?_⟩
    rcases hnumbered.lists.member hmember with hmemberRef | ⟨hne, hrow'⟩
    · rw [href] at hmemberRef
      cases hmemberRef
    · exact eq_of_isKind (hnumbered.rows.isKind hsmall (BuildOp.table_definition hne).1 hrow') hkind
  refine (List.perm_ext_iff_of_nodup (pick_nodup (allRows_nodup hnumbered))
    (hnumbered.rows.nodup table)).mpr fun item => ⟨fun h => ?_, fun h => ?_⟩
  · exact mem_rows.mpr (mem_tokenData_of_mem_allRows hnumbered (mem_pick.mp h)).2
  · rw [mem_pick, allRows, List.mem_flatMap]
    by_cases hparam : table = .param
    · subst hparam
      obtain ⟨method, hmethod⟩ := hnumbered.lists.row_param (mem_rows.mp h)
      have hrow := (hnumbered.lists.param hmethod).1
      obtain ⟨info, hinfo, hmem, href, hkind⟩ := hmember (by simp) (mem_rows.mpr hrow)
      refine ⟨info, hinfo, List.mem_flatMap.mpr ⟨method, hmem, ?_⟩⟩
      refine mem_memberRows.mpr (Or.inr ⟨rfl, href, ?_, hmethod⟩)
      cases hcase : image.memberKind method <;> simp_all [MemberKind.table]
    · have htable' : table ∈ [Table.field, .method, .property, .event] := by
        fin_cases htable <;> simp_all
      obtain ⟨info, hinfo, hmem, href, hkind⟩ := hmember htable' h
      exact ⟨info, hinfo, List.mem_flatMap.mpr ⟨item, hmem,
        mem_memberRows.mpr (Or.inl ⟨rfl, htable', href, hkind⟩)⟩⟩

end Numbered

/-! ### After both steps -/

/-- The rows of the table are `items`, no item has two rows, and row `n` holds the item whose token
has number `n`. -/
structure Dense (image : ILImage I) (table : Table) (items : List I) : Prop where
  rows : image.tokenData table = items.map some
  token : ∀ {n : Nat} {item : I}, items[n]? = some item → image.token item = table.row (n + 1)
  nodup : items.Nodup

/-- What the metadata writer relies on, for the image before and after. -/
structure Renumbered (image image' : ILImage I) : Prop where
  members : ∀ table ∈ [Table.field, .method, .property, .event],
    Dense image' table ((image.rows .typeDef).flatMap (image.definitions table))
  params : Dense image' .param
    (((image.rows .typeDef).flatMap (image.definitions .method)).flatMap image.parameters)
  references : ∀ table ∈ [Table.typeRef, .memberRef], Dense image' table (image.survivors table)
  survive : ∀ table ∈ [Table.field, .method, .param, .property, .event],
    (image'.tokenData table).Perm (image.tokenData table)
  classes : Dense image' .typeDef (image.rows .typeDef)
  lists : image'.members = image.members ∧ image'.parameters = image.parameters
  propertyMaps : image'.propertyMaps = (image.rows .typeDef).filterMap (image.firstMap .property)
  eventMaps : image'.eventMaps = (image.rows .typeDef).filterMap (image.firstMap .event)

theorem pick_allRows {table : Table} (htable : table ∈ [Table.field, .method, .property, .event]) :
    pick table image.allRows = (image.rows .typeDef).flatMap (image.definitions table) := by
  rw [allRows, pick_flatMap]
  congr 1
  funext info
  exact image.pick_classRows htable info

theorem pick_param_allRows : pick .param image.allRows =
    ((image.rows .typeDef).flatMap (image.definitions .method)).flatMap image.parameters := by
  rw [allRows, pick_flatMap, List.flatMap_assoc]
  congr 1
  funext info
  exact image.pick_param_classRows info

theorem survivors_congr {image' : ILImage I} {table : Table}
    (hdata : image'.tokenData table = image.tokenData table)
    (hkind : ∀ item, image'.isKind item table = image.isKind item table) :
    image'.survivors table = image.survivors table := by
  rw [survivors, survivors, rows, rows, hdata]
  congr 1
  funext item
  exact hkind item

/-- A table that keeps its rows stays dense when a table of references is compacted. -/
theorem Dense.moved {image' : ILImage I} {table other : Table} {items moved : List I}
    (hdense : Dense image table items) (h : Moved image other moved image') (hne : table ≠ other)
    (hlength : items.length < 2 ^ 24) (hkind : ∀ item ∈ moved, image.isKind item other) :
    Dense image' table items where
  rows := (h.data hne).trans hdense.rows
  token := by
    intro n item hitem
    rw [h.frame, hdense.token hitem]
    intro hmem
    have hlt : n < items.length := (List.getElem?_eq_some_iff.mp hitem).1
    have htable : image.isKind item table := isKind_of_token (by omega) (hdense.token hitem)
    exact hne (eq_of_isKind htable (hkind item hmem))
  nodup := hdense.nodup

theorem isKind_of_mem_survivors {table : Table} {item : I} (h : item ∈ image.survivors table) :
    image.isKind item table :=
  (List.mem_filter.mp h).2

theorem length_survivors_le (image : ILImage I) (table : Table) :
    (image.survivors table).length ≤ (image.tokenData table).length :=
  (List.length_filter_le ..).trans (List.reduceOption_length_le _)

theorem Dense.of_rows (hrows : image.Rows) {table : Table} (htable : table.Definition) :
    Dense image table (image.rows table) where
  rows := (hrows.map_some htable).symm
  token := by
    intro n item hitem
    have hrow : (image.tokenData table)[n]? = some (some item) := by
      rw [← hrows.map_some htable, List.getElem?_map, hitem]
      rfl
    obtain ⟨other, hother, htoken⟩ := hrows.token htable (List.getElem?_eq_some_iff.mp hrow).1
    rw [hrow] at hother
    cases hother
    exact htoken
  nodup := hrows.nodup table

variable [DecidableEq I] {sorted : ILImage I} {next : Next}

section Sorted

variable (hnumbered : image.Numbered) (hsmall : image.Small)
  (h : Progress image image.allRows (image.rows .typeDef) sorted next)
include hnumbered hsmall h

omit hnumbered hsmall in
/-- The tables that are not sorted keep their rows. -/
theorem Progress.tokenData_eq {table : Table}
    (htable : table ∉ [Table.field, .method, .param, .property, .event]) :
    sorted.tokenData table = image.tokenData table := by
  rw [h.data, allRows, pick_allRows_eq_nil htable]
  rfl

theorem Progress.survivors_eq {table : Table}
    (htable : table ∉ [Table.field, .method, .param, .property, .event]) :
    sorted.survivors table = image.survivors table :=
  survivors_congr (h.tokenData_eq htable) fun item =>
    h.isKind (plan_allRows hnumbered hsmall) (List.prefix_refl _) item table

theorem Progress.dense (hbelongs : image.Belongs) {table : Table}
    (htable : table ∈ [Table.field, .method, .param, .property, .event]) :
    Dense sorted table (pick table image.allRows) where
  rows := by
    have hdefinition : table.Definition := by
      fin_cases htable <;> simp [Table.Definition]
    have hlength : (pick table image.allRows).length = (image.tokenData table).length := by
      rw [(perm_pick_allRows hnumbered hsmall hbelongs htable).length_eq,
        ← hnumbered.rows.map_some hdefinition, List.length_map]
    rw [h.data, hlength, List.drop_length, List.append_nil]
  token := h.token
  nodup := pick_nodup (allRows_nodup hnumbered)

/-- The classes keep their tokens. -/
theorem Progress.dense_typeDef : Dense sorted .typeDef (image.rows .typeDef) := by
  have hdense : Dense image .typeDef (image.rows .typeDef) :=
    Dense.of_rows hnumbered.rows (by simp [Table.Definition])
  refine ⟨(h.tokenData_eq (by simp)).trans hdense.rows, ?_, hdense.nodup⟩
  intro n info hinfo
  rw [h.frame, hdense.token hinfo]
  intro table hmem
  have hrow : some info ∈ image.tokenData .typeDef := mem_rows.mp (List.mem_of_getElem? hinfo)
  have hkind := hnumbered.rows.isKind hsmall (by simp [Table.Definition]) hrow
  have htable := eq_of_isKind ((plan_allRows hnumbered hsmall).kind hmem) hkind
  subst htable
  have hnil := mem_pick.mpr hmem
  rw [allRows, pick_allRows_eq_nil (by simp)] at hnil
  cases hnil

end Sorted

/-- Compacting a table of references leaves it dense. -/
theorem dense_compactTable {table : Table} (hlength : (image.tokenData table).length < 2 ^ 24)
    (hunique : ∀ {m n : Nat} {item : I}, (image.tokenData table)[m]? = some (some item) →
      (image.tokenData table)[n]? = some (some item) → m = n) :
    Dense (image.compactTable table) table (image.survivors table) := by
  obtain ⟨hmoved, hdata⟩ := moved_compactTable hlength hunique
  exact ⟨hdata, hmoved.token, (rows_nodup_of hunique).filter _⟩

theorem renumbered_compactReferences (hnumbered : image.Numbered) (hsmall : image.Small)
    (hbelongs : image.Belongs)
    (h : Progress image image.allRows (image.rows .typeDef) sorted next) :
    Renumbered image sorted.compactReferences := by
  have hplan := plan_allRows hnumbered hsmall
  have hunique : ∀ {table : Table}, table ∉ [Table.field, .method, .param, .property, .event] →
      ∀ {m n : Nat} {item : I}, (sorted.tokenData table)[m]? = some (some item) →
        (sorted.tokenData table)[n]? = some (some item) → m = n := by
    intro table htable m n item hm hn
    rw [h.tokenData_eq htable] at hm hn
    exact hnumbered.rows.unique hm hn
  have hlength : ∀ {table : Table}, table ∉ [Table.field, .method, .param, .property, .event] →
      (sorted.tokenData table).length < 2 ^ 24 := by
    intro table htable
    rw [h.tokenData_eq htable]
    exact hsmall table
  -- The type references come first.
  have hnotMem : Table.typeRef ∉ [Table.field, .method, .param, .property, .event] := by simp
  obtain ⟨hmoved, -⟩ := moved_compactTable (hlength hnotMem) (hunique hnotMem)
  have hkind := hmoved.isKind
    (lt_of_le_of_lt (length_survivors_le ..) (hlength (by simp))) fun _ => isKind_of_mem_survivors
  have hdata : (sorted.compactTable .typeRef).tokenData .memberRef = sorted.tokenData .memberRef :=
    hmoved.data (by decide)
  have hunique' : ∀ {m n : Nat} {item : I},
      ((sorted.compactTable .typeRef).tokenData .memberRef)[m]? = some (some item) →
        ((sorted.compactTable .typeRef).tokenData .memberRef)[n]? = some (some item) → m = n := by
    rw [hdata]
    exact hunique (by simp)
  have hlength' : ((sorted.compactTable .typeRef).tokenData .memberRef).length < 2 ^ 24 := by
    rw [hdata]
    exact hlength (by simp)
  obtain ⟨hmoved', -⟩ := moved_compactTable hlength' hunique'
  have hboth : ∀ {table : Table} {items : List I}, table ≠ .typeRef → table ≠ .memberRef →
      items.length < 2 ^ 24 → Dense sorted table items →
        Dense sorted.compactReferences table items := by
    intro table items hne hne' hitems hdense
    have hdense' := (hdense.moved hmoved hne hitems fun _ => isKind_of_mem_survivors).moved hmoved'
      hne' hitems fun _ => isKind_of_mem_survivors
    exact ⟨hdense'.rows, hdense'.token, hdense'.nodup⟩
  have hsorted : ∀ {table : Table}, table ∈ [Table.field, .method, .param, .property, .event] →
      Dense sorted.compactReferences table (pick table image.allRows) := by
    intro table htable
    apply hboth
    · fin_cases htable <;> simp
    · fin_cases htable <;> simp
    · exact hplan.small table
    · exact h.dense hnumbered hsmall hbelongs htable
  constructor
  · intro table htable
    rw [← pick_allRows htable]
    exact hsorted (by fin_cases htable <;> simp)
  · rw [← pick_param_allRows]
    exact hsorted (by simp)
  · intro table htable
    rw [← h.survivors_eq hnumbered hsmall (by fin_cases htable <;> simp)]
    rcases List.mem_pair.mp htable with rfl | rfl
    · have hdense := dense_compactTable (hlength hnotMem) (hunique hnotMem)
      have hdense' := hdense.moved hmoved' (by decide)
        (lt_of_le_of_lt (length_survivors_le ..) (hlength (by simp)))
        fun _ => isKind_of_mem_survivors
      exact ⟨hdense'.rows, hdense'.token, hdense'.nodup⟩
    · have hdense := dense_compactTable hlength' hunique'
      rw [survivors_congr hdata fun item => hkind item .memberRef] at hdense
      exact ⟨hdense.rows, hdense.token, hdense.nodup⟩
  · intro table htable
    have hdefinition : table.Definition := by
      fin_cases htable <;> simp [Table.Definition]
    rw [(hsorted htable).rows, ← hnumbered.rows.map_some hdefinition]
    exact (perm_pick_allRows hnumbered hsmall hbelongs htable).map some
  · apply hboth (by decide) (by decide) ?_ (h.dense_typeDef hnumbered hsmall)
    exact lt_of_le_of_lt (List.reduceOption_length_le _) (hsmall .typeDef)
  · exact ⟨(hmoved'.members.trans hmoved.members).trans h.members,
      (hmoved'.parameters.trans hmoved.parameters).trans h.parameters⟩
  · have hmaps := (hmoved'.propertyMaps.trans hmoved.propertyMaps).trans h.propertyMaps
    rwa [hnumbered.noMaps.1, List.nil_append] at hmaps
  · have hmaps := (hmoved'.eventMaps.trans hmoved.eventMaps).trans h.eventMaps
    rwa [hnumbered.noMaps.2, List.nil_append] at hmaps

end ILImage

/-! ### Many fields -/

/-- A class of `n` fields. -/
def manyFields : Nat → ILImage Nat
  | 0 => (BuildOp.classCreate 0).run (.empty (fun _ => 0) fun _ => .ref)
  | n + 1 => (BuildOp.memberCreate 0 (n + 1) .field false).run (manyFields n)

/-- What the image of `n` fields looks like. -/
structure HasFields (n : Nat) (image : ILImage Nat) : Prop where
  field : image.tokenData .field = (List.range n).map fun i => some (i + 1)
  typeDef : image.tokenData .typeDef = [some 0]
  other : ∀ {table : Table}, table ≠ .field → table ≠ .typeDef → image.tokenData table = []
  members : image.members 0 = (List.range n).map (· + 1)
  members_other : ∀ {info : Nat}, info ≠ 0 → image.members info = []
  parameters : ∀ method, image.parameters method = []
  token_class : image.token 0 = Table.typeDef.row 1
  token : ∀ {i : Nat}, i < n → image.token (i + 1) = Table.field.row (i + 1)
  memberKind : ∀ {i : Nat}, i < n → image.memberKind (i + 1) = .field

theorem hasFields_manyFields (n : Nat) : HasFields n (manyFields n) := by
  induction n with
  | zero =>
    refine ⟨rfl, rfl, ?_, rfl, fun _ => rfl, fun _ => rfl, rfl, nofun, nofun⟩
    intro table _ htable
    exact ILImage.setToken_tokenData_of_ne htable
  | succ n ih =>
    refine ⟨?_, ih.typeDef, ?_, ?_, ?_, ih.parameters, ?_, ?_, ?_⟩
    · change (manyFields n).tokenData .field ++ [some (n + 1)] = _
      rw [ih.field, List.range_succ, List.map_append]
      rfl
    · intro table hfield htypeDef
      rw [← ih.other hfield htypeDef]
      exact ILImage.setToken_tokenData_of_ne hfield
    · change (manyFields n).members 0 ++ [n + 1] = _
      rw [ih.members, List.range_succ, List.map_append]
      rfl
    · intro info hinfo
      rw [← ih.members_other hinfo]
      exact Function.update_of_ne hinfo _ _
    · rw [← ih.token_class]
      exact ILImage.setToken_token_of_ne (Nat.succ_ne_zero n).symm
    · intro i hi
      by_cases hlast : i = n
      · subst hlast
        have hlength : ((manyFields i).tokenData .field).length = i := by simp [ih.field]
        have htoken : (manyFields (i + 1)).token (i + 1) =
            Table.field.row (((manyFields i).tokenData .field).length + 1) :=
          ILImage.setToken_token_self
        rwa [hlength] at htoken
      · rw [← ih.token (by omega)]
        exact ILImage.setToken_token_of_ne (by omega)
    · intro i hi
      by_cases hlast : i = n
      · subst hlast
        exact Function.update_self ..
      · rw [← ih.memberKind (show i < n by omega)]
        exact Function.update_of_ne (by omega) _ _

theorem built_manyFields (n : Nat) : Built (manyFields n) := by
  induction n with
  | zero =>
    refine Built.step (Built.start _ _) (.classCreate 0) ⟨?_, ?_, ?_⟩ <;>
      simp [ILImage.empty]
  | succ n ih =>
    have hfields := hasFields_manyFields n
    refine Built.step ih (.memberCreate 0 (n + 1) .field false) ⟨?_, ?_, ?_⟩
    · intro table
      by_cases hfield : table = .field
      · subst hfield
        simp [hfields.field]
      · by_cases htypeDef : table = .typeDef
        · subst htypeDef
          simp [hfields.typeDef]
        · simp [hfields.other hfield htypeDef]
    · intro info
      by_cases hinfo : info = 0
      · subst hinfo
        simp [hfields.members]
      · simp [hfields.members_other hinfo]
    · intro method
      simp [hfields.parameters]

theorem belongs_manyFields (n : Nat) : (manyFields n).Belongs := by
  have hfields := hasFields_manyFields n
  intro table htable member hmember
  rw [ILImage.mem_rows] at hmember
  refine ⟨0, ILImage.mem_rows.mpr (by simp [hfields.typeDef]), ?_⟩
  by_cases hfield : table = .field
  · subst hfield
    simpa [hfields.field, hfields.members] using hmember
  · rw [hfields.other hfield (by fin_cases htable <;> simp)] at hmember
    cases hmember

theorem small_manyFields {n : Nat} (hn : n < 2 ^ 24) : (manyFields n).Small := by
  have hfields := hasFields_manyFields n
  intro table
  by_cases hfield : table = .field
  · subst hfield
    simpa [hfields.field] using hn
  · by_cases htypeDef : table = .typeDef
    · subst htypeDef
      simp [hfields.typeDef]
    · simp [hfields.other hfield htypeDef]

theorem assignMembers_append {I : Type} [DecidableEq I] (image : ILImage I) (next : ILImage.Next)
    (members members' : List I) : image.assignMembers next (members ++ members') =
      (image.assignMembers next members).bind fun state =>
        state.1.assignMembers state.2 members' := by
  induction members generalizing image next with
  | nil => rfl
  | cons member members ih =>
    rw [List.cons_append, ILImage.assignMembers, ILImage.assignMembers]
    cases hrun : image.assignMember next member with
    | none => rfl
    | some state => exact ih state.1 state.2

/-- The last of `2 ^ 24` fields would get a token of another table, and the row before the first. -/
theorem assignMember_last {image : ILImage Nat} {next : ILImage.Next} {member : Nat}
    (htoken : image.token member = Table.field.row (2 ^ 24))
    (hkind : image.memberKind member = .field)
    (hnext : (next .field).toNat = Table.field.token.toNat + 2 ^ 24)
    (hlength : (image.tokenData .field).length ≤ 2 ^ 24) :
    image.assignMember next member = none := by
  have href : image.isKind member .memberRef = false := by
    rw [ILImage.isKind, htoken]
    rfl
  have hnext' : next .field = 0x05000000 := BitVec.eq_of_toNat_eq hnext
  have hindex : ¬ ((next .field &&& ~~~tokenMask) - 1).toNat < (image.tokenData .field).length := by
    have hvalue : ((next .field &&& ~~~tokenMask) - 1).toNat = 2 ^ 32 - 1 := by
      rw [hnext']
      rfl
    omega
  rw [ILImage.assignMember, href, hkind]
  simp only [ILImage.renumber, hindex, if_false]
  rfl

/-- The rows of the fields before the last. -/
theorem plan_manyFields (n : Nat) (hn : n < 2 ^ 24) :
    ILImage.Plan (manyFields (n + 1)) ((List.range n).map fun i => (Table.field, i + 1)) ∧
      ((List.range n).map (· + 1)).flatMap (manyFields (n + 1)).memberRows =
        (List.range n).map fun i => (Table.field, i + 1) := by
  have hfields := hasFields_manyFields (n + 1)
  have hpick : pick .field ((List.range n).map fun i => (Table.field, i + 1)) =
      (List.range n).map (· + 1) := by
    simp [pick, List.filter_map, Function.comp_def]
  have hother : ∀ {table : Table}, table ≠ .field →
      pick table ((List.range n).map fun i => (Table.field, i + 1)) = [] := by
    intro table hne
    simp [pick, List.filter_map, Function.comp_def, Ne.symm hne]
  have hkind : ∀ {i : Nat}, i < n → (manyFields (n + 1)).isKind (i + 1) .field := by
    intro i hi
    exact ILImage.isKind_of_token (by omega) (hfields.token (by omega))
  refine ⟨⟨?_, ?_, ?_, ?_⟩, ?_⟩
  · intro table
    by_cases hne : table = .field
    · subst hne
      simpa [hpick] using hn
    · simp [hother hne]
  · intro table item hmem
    obtain ⟨i, hi, heq⟩ := List.mem_map.mp hmem
    cases heq
    exact hkind (List.mem_range.mp hi)
  · apply List.nodup_range.map
    intro i j heq
    simpa using heq
  · intro table
    by_cases hne : table = .field
    · subst hne
      simp [hpick, hfields.field]
    · simp [hother hne]
  · rw [List.flatMap_map, ← List.flatMap_singleton' ((List.range n).map _), List.flatMap_map]
    apply List.flatMap_congr
    intro i hi
    have hi' := List.mem_range.mp hi
    have href : (manyFields (n + 1)).isKind (i + 1) .memberRef = false := by
      apply Bool.eq_false_iff.mpr
      intro href
      exact absurd (ILImage.eq_of_isKind href (hkind hi')) (by decide)
    simp [ILImage.memberRows, href, hfields.memberKind (show i < n + 1 by omega)]

end Pnet.Image.Renumber
