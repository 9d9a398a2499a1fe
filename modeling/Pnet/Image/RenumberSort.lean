import Mathlib.Tactic.FinCases
import Pnet.Image.RenumberBuilt

/-! The run of `SortClasses`. The rows it gives out are those of a list of tables and items, which
the classes and their members determine before the run; what it has done at any time is a prefix of
that list. -/
namespace Pnet.Image.Renumber

variable {I : Type}

/-! ### The rows that are given out -/

/-- The items that get a row of the table, in order. -/
def pick (table : Table) (list : List (Table × I)) : List I :=
  (list.filter fun given => given.1 = table).map Prod.snd

theorem pick_append (table : Table) (list list' : List (Table × I)) :
    pick table (list ++ list') = pick table list ++ pick table list' := by
  simp [pick]

theorem pick_singleton_self (table : Table) (item : I) : pick table [(table, item)] = [item] := by
  simp [pick]

theorem pick_singleton_of_ne {table other : Table} (h : table ≠ other) (item : I) :
    pick other [(table, item)] = [] := by
  simp [pick, h]

theorem mem_pick {table : Table} {list : List (Table × I)} {item : I} :
    item ∈ pick table list ↔ (table, item) ∈ list := by
  simp [pick]

theorem pick_flatMap {A : Type} (table : Table) (list : List A) (f : A → List (Table × I)) :
    pick table (list.flatMap f) = list.flatMap fun a => pick table (f a) := by
  induction list with
  | nil => rfl
  | cons a list ih => rw [List.flatMap_cons, pick_append, ih, List.flatMap_cons]

theorem pick_nodup {table : Table} {list : List (Table × I)} (h : list.Nodup) :
    (pick table list).Nodup := by
  refine (h.filter _).map_on ?_
  intro a ha b hb heq
  have hfst : ∀ {c : Table × I}, c ∈ list.filter (fun given => given.1 = table) → c.1 = table := by
    intro c hc
    simpa using (List.mem_filter.mp hc).2
  exact Prod.ext ((hfst ha).trans (hfst hb).symm) heq

namespace ILImage

/-- The rows that are given out for a member of a class. -/
def memberRows (image : ILImage I) (member : I) : List (Table × I) :=
  if image.isKind member .memberRef then []
  else
    match image.memberKind member with
    | .method => (.method, member) :: (image.parameters member).map (Prod.mk .param)
    | .field => [(.field, member)]
    | .property => [(.property, member)]
    | .event => [(.event, member)]
    | _ => []

def classRows (image : ILImage I) (info : I) : List (Table × I) :=
  (image.members info).flatMap image.memberRows

/-- The members of a class that are definitions of the table. -/
def definitions (image : ILImage I) (table : Table) (info : I) : List I :=
  (image.members info).filter fun member =>
    !image.isKind member .memberRef && (image.memberKind member).table = table

theorem pick_memberRows (image : ILImage I) {table : Table}
    (htable : table ∈ [Table.field, .method, .property, .event]) (member : I) :
    pick table (image.memberRows member) =
      if !image.isKind member .memberRef && (image.memberKind member).table = table then [member]
      else [] := by
  rw [memberRows]
  by_cases href : image.isKind member .memberRef
  · simp [href, pick]
  · cases hkind : image.memberKind member <;> fin_cases htable <;>
      simp [href, hkind, pick, MemberKind.table]

theorem pick_param_memberRows (image : ILImage I) (member : I) :
    pick .param (image.memberRows member) =
      (if !image.isKind member .memberRef && (image.memberKind member).table = .method then [member]
        else []).flatMap image.parameters := by
  rw [memberRows]
  by_cases href : image.isKind member .memberRef
  · simp [href, pick]
  · cases hkind : image.memberKind member with
    | method => simp [href, pick, MemberKind.table, List.filter_map, Function.comp_def]
    | _ => simp [href, hkind, pick, MemberKind.table]

theorem definitions_eq_flatMap (image : ILImage I) (table : Table) (info : I) :
    image.definitions table info = (image.members info).flatMap fun member =>
      if !image.isKind member .memberRef && (image.memberKind member).table = table then [member]
      else [] := by
  rw [definitions]
  induction image.members info with
  | nil => rfl
  | cons member members ih =>
    rw [List.flatMap_cons, List.filter_cons, ih]
    split <;> rfl

theorem pick_classRows (image : ILImage I) {table : Table}
    (htable : table ∈ [Table.field, .method, .property, .event]) (info : I) :
    pick table (image.classRows info) = image.definitions table info := by
  rw [classRows, pick_flatMap, definitions_eq_flatMap]
  congr 1
  funext member
  exact image.pick_memberRows htable member

theorem pick_param_classRows (image : ILImage I) (info : I) :
    pick .param (image.classRows info) =
      (image.definitions .method info).flatMap image.parameters := by
  rw [classRows, pick_flatMap, definitions_eq_flatMap, List.flatMap_assoc]
  congr 1
  funext member
  exact image.pick_param_memberRows member

/-- Only the tables of members and of parameters are sorted. -/
theorem table_of_mem_memberRows {image : ILImage I} {member item : I} {table : Table}
    (h : (table, item) ∈ image.memberRows member) :
    table ∈ [Table.field, .method, .param, .property, .event] := by
  rw [memberRows] at h
  split at h
  · cases h
  · split at h <;> simp at h
    · rcases h with ⟨rfl, -⟩ | ⟨_, _, rfl, -⟩ <;> simp
    all_goals simp [h.1]

/-- The entry of a class in a table of maps, if it has one. -/
def firstMap (image : ILImage I) (table : Table) (info : I) : Option (I × Option I) :=
  (image.definitions table info).head?.map fun first => (info, some first)

/-! ### Progress -/

variable {orig image : ILImage I} {plan done : List (Table × I)} {mapped : List I} {next : Next}

/-- The rows can be given out: each item has a token of the table already, no item is given a row of
a table twice, and there are as many rows, which tokens can number. -/
structure Plan (orig : ILImage I) (plan : List (Table × I)) : Prop where
  small : ∀ table, (pick table plan).length < 2 ^ 24
  kind : ∀ {table : Table} {item : I}, (table, item) ∈ plan → orig.isKind item table
  nodup : plan.Nodup
  length : ∀ table, (pick table plan).length ≤ (orig.tokenData table).length

/-- The rows of `done` are given out, and the entries of the maps are those of the classes in
`mapped`. -/
structure Progress (orig : ILImage I) (done : List (Table × I)) (mapped : List I)
    (image : ILImage I) (next : Next) : Prop where
  data : ∀ table, image.tokenData table =
    (pick table done).map some ++ (orig.tokenData table).drop (pick table done).length
  token : ∀ {table : Table} {n : Nat} {item : I}, (pick table done)[n]? = some item →
    image.token item = table.row (n + 1)
  frame : ∀ {item : I}, (∀ table, (table, item) ∉ done) → image.token item = orig.token item
  next : ∀ table, (next table).toNat = table.token.toNat + (pick table done).length + 1
  members : image.members = orig.members
  memberKind : image.memberKind = orig.memberKind
  parameters : image.parameters = orig.parameters
  propertyMaps : image.propertyMaps = orig.propertyMaps ++ mapped.filterMap (orig.firstMap .property)
  eventMaps : image.eventMaps = orig.eventMaps ++ mapped.filterMap (orig.firstMap .event)

theorem progress_start (orig : ILImage I) :
    Progress orig [] [] orig (fun table => table.token ||| 1) where
  data _ := rfl
  token h := by simp [pick] at h
  frame _ := rfl
  next table := table.toNat_row (n := 1) (by decide)
  members := rfl
  memberKind := rfl
  parameters := rfl
  propertyMaps := (List.append_nil _).symm
  eventMaps := (List.append_nil _).symm

namespace Plan

variable (hplan : Plan orig plan) (hstart : done <+: plan)
include hplan hstart

theorem length_pick_le (table : Table) :
    (pick table done).length ≤ (orig.tokenData table).length := by
  obtain ⟨rest, rfl⟩ := hstart
  have h := hplan.length table
  rw [pick_append, List.length_append] at h
  omega

theorem length_pick_lt (table : Table) : (pick table done).length < 2 ^ 24 := by
  obtain ⟨rest, rfl⟩ := hstart
  have h := hplan.small table
  rw [pick_append, List.length_append] at h
  omega

theorem kind_of_start {table : Table} {item : I} (h : (table, item) ∈ done) :
    orig.isKind item table :=
  hplan.kind (hstart.subset h)

theorem nodup_start : done.Nodup := hplan.nodup.sublist hstart.sublist

end Plan

section Run

variable [DecidableEq I] (hplan : Plan orig plan)
include hplan

/-- No item gets a token of another table. -/
theorem Progress.isKind (h : Progress orig done mapped image next) (hstart : done <+: plan)
    (item : I) (table : Table) : image.isKind item table = orig.isKind item table := by
  by_cases hitem : ∃ other, (other, item) ∈ done
  · obtain ⟨other, hother⟩ := hitem
    have horig := hplan.kind_of_start hstart hother
    obtain ⟨n, hn⟩ := List.mem_iff_getElem?.mp (mem_pick.mpr hother)
    have hlt : n < (pick other done).length := (List.getElem?_eq_some_iff.mp hn).1
    have hsmall := hplan.length_pick_lt hstart other
    have himage : image.isKind item other := isKind_of_token (by omega) (h.token hn)
    apply Bool.eq_iff_iff.mpr
    constructor
    · intro hkind
      rw [eq_of_isKind hkind himage]
      exact horig
    · intro hkind
      rw [eq_of_isKind hkind horig]
      exact himage
  · rw [ILImage.isKind, ILImage.isKind, h.frame (not_exists.mp hitem)]

/-- One row. -/
theorem Progress.renumber (h : Progress orig done mapped image next) {table : Table} {item : I}
    (hstart : done ++ [(table, item)] <+: plan) : ∃ image' next',
      image.renumber next table item = some (image', next') ∧
        Progress orig (done ++ [(table, item)]) mapped image' next' := by
  have hdone : done <+: plan := (List.prefix_append _ _).trans hstart
  have hkind : orig.isKind item table := hplan.kind_of_start hstart (by simp)
  have hnew : (table, item) ∉ done := by
    have hnodup := hplan.nodup_start hstart
    rw [← List.concat_eq_append, List.nodup_concat] at hnodup
    exact hnodup.1
  have hother : ∀ {other : Table}, (other, item) ∉ done := by
    intro other hmem
    have heq := eq_of_isKind (hplan.kind_of_start hdone hmem) hkind
    subst heq
    exact hnew hmem
  have hlength := hplan.length_pick_le hstart table
  have hsmall := hplan.length_pick_lt hstart table
  rw [pick_append, pick_singleton_self, List.length_append, List.length_singleton]
    at hlength hsmall
  have hnext : next table = table.row ((pick table done).length + 1) := by
    apply BitVec.eq_of_toNat_eq
    rw [h.next, Table.toNat_row _ (by omega)]
    rfl
  have hindex : ((next table &&& ~~~tokenMask) - 1).toNat = (pick table done).length := by
    rw [hnext, Table.toNat_row_and_sub _ (by omega)]
  have hdata : image.tokenData table = (pick table done).map some ++
      (orig.tokenData table).drop (pick table done).length := h.data table
  have hlt : (pick table done).length < (image.tokenData table).length := by
    rw [hdata, List.length_append, List.length_map, List.length_drop]
    omega
  simp only [ILImage.renumber, hindex, hlt, if_true]
  refine ⟨_, _, rfl, ?_, ?_, ?_, ?_, h.members, h.memberKind, h.parameters, h.propertyMaps,
    h.eventMaps⟩
  · intro other
    by_cases htable : other = table
    · subst htable
      simp only [Function.update_self]
      rw [hdata, List.set_append_right _ _ (by simp), List.length_map, Nat.sub_self, pick_append,
        pick_singleton_self, List.map_append, List.append_assoc, List.length_append,
        List.length_singleton, List.drop_eq_getElem_cons (by omega), List.set_cons_zero]
      rfl
    · simp only [Function.update_of_ne htable]
      rw [h.data, pick_append, pick_singleton_of_ne (Ne.symm htable), List.append_nil]
  · intro other n old hold
    by_cases hold' : old = item
    · subst hold'
      have hmem : (other, old) ∈ done ++ [(table, old)] :=
        mem_pick.mp (List.mem_of_getElem? hold)
      obtain rfl : other = table := by
        rcases List.mem_append.mp hmem with hmem | hmem
        · exact absurd hmem hother
        · simpa using hmem
      rw [pick_append, pick_singleton_self] at hold
      have hn : n = (pick other done).length := by
        by_contra hne
        have hlt' := (List.getElem?_eq_some_iff.mp hold).1
        rw [List.length_append, List.length_singleton] at hlt'
        rw [List.getElem?_append_left (by omega)] at hold
        exact hother (mem_pick.mp (List.mem_of_getElem? hold))
      simp only [Function.update_self, hn]
      exact hnext
    · simp only [Function.update_of_ne hold']
      apply h.token
      rw [pick_append] at hold
      by_cases hlt' : n < (pick other done).length
      · rwa [List.getElem?_append_left hlt'] at hold
      · rw [List.getElem?_append_right (by omega)] at hold
        have hmem := mem_pick.mp (List.mem_of_getElem? hold)
        simp only [List.mem_singleton, Prod.mk.injEq] at hmem
        exact absurd hmem.2 hold'
  · intro old hold
    have hne : old ≠ item := by
      rintro rfl
      exact hold table (by simp)
    simp only [Function.update_of_ne hne]
    exact h.frame fun other hmem => hold other (List.mem_append_left _ hmem)
  · intro other
    by_cases htable : other = table
    · subst htable
      obtain ⟨number, hnumber, htoken⟩ := other.exists_toNat_token
      simp only [Function.update_self]
      rw [pick_append, pick_singleton_self, List.length_append, List.length_singleton,
        BitVec.toNat_add, h.next]
      have hone : (1 : ILToken).toNat = 1 := rfl
      omega
    · simp only [Function.update_of_ne htable]
      rw [h.next, pick_append, pick_singleton_of_ne (Ne.symm htable), List.append_nil]

theorem Progress.renumberAll {table : Table} {items : List I}
    (h : Progress orig done mapped image next)
    (hstart : done ++ items.map (Prod.mk table) <+: plan) : ∃ image' next',
      renumberAll image next table items = some (image', next') ∧
        Progress orig (done ++ items.map (Prod.mk table)) mapped image' next' := by
  induction items generalizing image next done with
  | nil =>
    refine ⟨image, next, rfl, ?_⟩
    rwa [List.map_nil, List.append_nil]
  | cons item items ih =>
    rw [List.map_cons, List.append_cons] at hstart ⊢
    obtain ⟨image', next', hrun, h'⟩ := h.renumber hplan ((List.prefix_append _ _).trans hstart)
    obtain ⟨image'', next'', hrun', h''⟩ := ih h' hstart
    refine ⟨image'', next'', ?_, h''⟩
    simp only [ILImage.renumberAll, hrun]
    exact hrun'

theorem Progress.assignMember (h : Progress orig done mapped image next) {member : I}
    (hstart : done ++ orig.memberRows member <+: plan) : ∃ image' next',
      image.assignMember next member = some (image', next') ∧
        Progress orig (done ++ orig.memberRows member) mapped image' next' := by
  have hdone : done <+: plan := (List.prefix_append _ _).trans hstart
  rw [ILImage.assignMember, h.isKind hplan hdone, h.memberKind]
  rw [memberRows] at hstart ⊢
  by_cases href : orig.isKind member .memberRef
  · rw [if_pos href] at hstart
    rw [if_pos href, if_pos href, List.append_nil]
    exact ⟨image, next, rfl, h⟩
  · rw [if_neg href] at hstart
    rw [if_neg href, if_neg href]
    cases hkind : orig.memberKind member with
    | method =>
      simp only [hkind] at hstart ⊢
      rw [List.append_cons] at hstart ⊢
      obtain ⟨image', next', hrun, h'⟩ := h.renumber hplan ((List.prefix_append _ _).trans hstart)
      obtain ⟨image'', next'', hrun', h''⟩ := h'.renumberAll hplan hstart
      refine ⟨image'', next'', ?_, h''⟩
      rw [← h'.parameters] at hrun'
      simp only [hrun]
      exact hrun'
    | field => exact h.renumber hplan (by simpa only [hkind] using hstart)
    | property => exact h.renumber hplan (by simpa only [hkind] using hstart)
    | event => exact h.renumber hplan (by simpa only [hkind] using hstart)
    | override => exact ⟨image, next, rfl, by simpa using h⟩
    | pInvoke => exact ⟨image, next, rfl, by simpa using h⟩
    | ref => exact ⟨image, next, rfl, by simpa using h⟩

theorem Progress.assignMembers {members : List I} (h : Progress orig done mapped image next)
    (hstart : done ++ members.flatMap orig.memberRows <+: plan) : ∃ image' next',
      assignMembers image next members = some (image', next') ∧
        Progress orig (done ++ members.flatMap orig.memberRows) mapped image' next' := by
  induction members generalizing image next done with
  | nil =>
    refine ⟨image, next, rfl, ?_⟩
    rwa [List.flatMap_nil, List.append_nil]
  | cons member members ih =>
    rw [List.flatMap_cons, ← List.append_assoc] at hstart ⊢
    obtain ⟨image', next', hrun, h'⟩ := h.assignMember hplan ((List.prefix_append _ _).trans hstart)
    obtain ⟨image'', next'', hrun', h''⟩ := ih h' hstart
    refine ⟨image'', next'', ?_, h''⟩
    simp only [ILImage.assignMembers, hrun]
    exact hrun'

theorem Progress.mapEntry {info : I}
    (h : Progress orig (done ++ orig.classRows info) mapped image next)
    (hstart : done ++ orig.classRows info <+: plan) {first : Next} {table : Table}
    (htable : table ∈ [Table.property, .event])
    (hfirst : (first table).toNat = table.token.toNat + (pick table done).length + 1) :
    (if first table < next table then [(info, image.ilImageTokenInfo (first table))] else []) =
      (orig.firstMap table info).toList := by
  have hdefinitions : pick table (orig.classRows info) = orig.definitions table info :=
    orig.pick_classRows (by fin_cases htable <;> simp) info
  have hnext := h.next table
  have hdata := h.data table
  have hsmall := hplan.length_pick_lt hstart table
  rw [pick_append, hdefinitions, List.length_append] at hnext hsmall
  rw [pick_append, hdefinitions] at hdata
  rw [firstMap]
  cases hlist : orig.definitions table info with
  | nil =>
    rw [hlist, List.length_nil] at hnext
    rw [if_neg (by rw [BitVec.lt_def]; omega)]
    rfl
  | cons member members =>
    rw [hlist, List.length_cons] at hnext hsmall
    rw [hlist] at hdata
    have htoken : first table = table.row ((pick table done).length + 1) := by
      apply BitVec.eq_of_toNat_eq
      rw [hfirst, Table.toNat_row _ (by omega)]
      rfl
    have hrow : ((image.tokenData table)[(pick table done).length]?).join = some member := by
      rw [hdata, List.map_append, List.append_assoc, List.getElem?_append_right (by simp)]
      simp
    rw [if_pos (by rw [BitVec.lt_def]; omega), htoken, ilImageTokenInfo_row _ _ (by omega), hrow]
    rfl

theorem Progress.assignMemberTokens {info : I} (h : Progress orig done mapped image next)
    (hstart : done ++ orig.classRows info <+: plan) : ∃ image' next',
      image.assignMemberTokens info next = some (image', next') ∧
        Progress orig (done ++ orig.classRows info) (mapped ++ [info]) image' next' := by
  obtain ⟨image', next', hrun, h'⟩ := h.assignMembers hplan hstart
  refine ⟨image'.createMaps info next next', next', ?_, ?_⟩
  · rw [ILImage.assignMemberTokens, h.members, hrun]
    rfl
  · have hfilterMap : ∀ f : I → Option (I × Option I), (mapped ++ [info]).filterMap f =
        mapped.filterMap f ++ (f info).toList := by
      intro f
      rw [List.filterMap_append]
      cases hf : f info <;> simp [hf]
    refine ⟨h'.data, h'.token, h'.frame, h'.next, h'.members, h'.memberKind, h'.parameters, ?_, ?_⟩
    · have hentry := h'.mapEntry hplan hstart (show Table.property ∈ [Table.property, .event] by simp)
        (h.next _)
      rw [hfilterMap, ← List.append_assoc, ← h'.propertyMaps, ← hentry]
      rfl
    · have hentry := h'.mapEntry hplan hstart (show Table.event ∈ [Table.property, .event] by simp)
        (h.next _)
      rw [hfilterMap, ← List.append_assoc, ← h'.eventMaps, ← hentry]
      rfl

end Run

/-! ### All the classes -/

/-- The rows that are given out for the classes, in order. -/
def allRows (image : ILImage I) : List (Table × I) := (image.rows .typeDef).flatMap image.classRows

theorem pick_allRows_eq_nil {classes : List I} {table : Table}
    (htable : table ∉ [Table.field, .method, .param, .property, .event]) :
    pick table (classes.flatMap image.classRows) = [] := by
  apply List.eq_nil_iff_forall_not_mem.mpr
  intro item hitem
  obtain ⟨info, -, hinfo⟩ := List.mem_flatMap.mp (mem_pick.mp hitem)
  obtain ⟨member, -, hmember⟩ := List.mem_flatMap.mp hinfo
  exact htable (table_of_mem_memberRows hmember)

/-- The token after the one of row `n`. -/
theorem ilImageTokenInfo_next (hsmall : image.Small) {table : Table} {token : ILToken} {n : Nat}
    (htoken : token.toNat = table.token.toNat + n + 1) (hn : n ≤ (image.tokenData table).length) :
    image.ilImageTokenInfo token = ((image.tokenData table)[n]?).join := by
  have hlength := hsmall table
  by_cases hlt : n + 1 < 2 ^ 24
  · have hrow : token = table.row (n + 1) := by
      apply BitVec.eq_of_toNat_eq
      rw [htoken, Table.toNat_row _ hlt]
      rfl
    rw [hrow, ilImageTokenInfo_row _ _ hlt]
  · -- There is no token with such a number, and it is that of no table's row zero.
    have hzero : (token &&& ~~~tokenMask).toNat = 0 := by
      obtain ⟨number, hnumber, htable⟩ := table.exists_toNat_token
      rw [Lib.Bits.toNat_and_mask _ (~~~tokenMask) 24 rfl]
      omega
    have hnone : (image.tokenData table)[n]? = none := List.getElem?_eq_none (by omega)
    rw [ilImageTokenInfo, hnone]
    split
    · rfl
    · rw [if_pos hzero]
      rfl

section Classes

variable (hrows : orig.Rows) (hsmall : orig.Small) (hplan : Plan orig orig.allRows)
  {before rest : List I} (hclasses : orig.rows .typeDef = before ++ rest)
include hrows hsmall hplan hclasses

omit hrows hsmall hplan in
theorem prefix_allRows : before.flatMap orig.classRows <+: orig.allRows := by
  rw [allRows, hclasses, List.flatMap_append]
  exact List.prefix_append _ _

/-- The next class is the one after those that are done. -/
theorem Progress.nextClass (h : Progress orig (before.flatMap orig.classRows) mapped image next)
    {token : ILToken} (htoken : token.toNat = Table.typeDef.token.toNat + before.length + 1) :
    image.ilImageTokenInfo token = rest.head? := by
  have htypeDef : (orig.rows .typeDef).map some = orig.tokenData .typeDef :=
    hrows.map_some (by simp [Table.Definition])
  have hdata : image.tokenData .typeDef = (before ++ rest).map some := by
    rw [h.data, pick_allRows_eq_nil (by simp), ← hclasses, htypeDef]
    rfl
  have hsmall' : image.Small := by
    intro table
    have hle := hplan.length_pick_le (prefix_allRows hclasses) table
    have hlt := hsmall table
    rw [h.data, List.length_append, List.length_map, List.length_drop]
    omega
  rw [ilImageTokenInfo_next hsmall' htoken (by simp [hdata]), hdata, List.map_append,
    List.getElem?_append_right (by simp), List.length_map, Nat.sub_self]
  cases rest with
  | nil => rfl
  | cons info rest => rfl

/-- A class keeps its token. -/
theorem Progress.token_class {info : I} (hrest : rest.head? = some info) {done : List (Table × I)}
    (hstart : done <+: orig.allRows) (h : Progress orig done mapped image next) :
    (image.token info + 1).toNat = Table.typeDef.token.toNat + (before ++ [info]).length + 1 := by
  have hinfo : (orig.tokenData .typeDef)[before.length]? = some (some info) := by
    obtain ⟨rest, rfl⟩ : ∃ tail, rest = info :: tail := by
      cases rest with
      | nil => cases hrest
      | cons first rest => exact ⟨rest, by rw [Option.some.inj hrest]⟩
    rw [← hrows.map_some (by simp [Table.Definition]), hclasses, List.map_append,
      List.getElem?_append_right (by simp), List.length_map, Nat.sub_self]
    rfl
  have hlt : before.length < (orig.tokenData .typeDef).length :=
    (List.getElem?_eq_some_iff.mp hinfo).1
  have hlength := hsmall .typeDef
  obtain ⟨other, hother, htoken⟩ := hrows.token (by simp [Table.Definition]) hlt
  rw [hinfo] at hother
  cases hother
  have hkind : orig.isKind info .typeDef := isKind_of_token (by omega) htoken
  have hframe : image.token info = orig.token info := by
    apply h.frame
    intro table hmem
    have htable := eq_of_isKind (hplan.kind_of_start hstart hmem) hkind
    subst htable
    have hpick : pick .typeDef orig.allRows = [] := pick_allRows_eq_nil (by simp)
    have hnil := mem_pick.mpr (hstart.subset hmem)
    rw [hpick] at hnil
    cases hnil
  rw [hframe, htoken, BitVec.toNat_add, Table.toNat_row _ (by omega), List.length_append]
  have hone : (1 : ILToken).toNat = 1 := rfl
  have htypeDef : Table.typeDef.token.toNat = 2 ^ 25 := rfl
  rw [List.length_singleton]
  omega

end Classes

variable [DecidableEq I]

theorem Progress.sortFrom (hrows : orig.Rows) (hsmall : orig.Small)
    (hplan : Plan orig orig.allRows) {before rest : List I}
    (hclasses : orig.rows .typeDef = before ++ rest) {steps : Nat} (hsteps : rest.length < steps)
    {token : ILToken} (htoken : token.toNat = Table.typeDef.token.toNat + before.length + 1)
    (h : Progress orig (before.flatMap orig.classRows) before image next) : ∃ image' next',
      sortFrom steps image next token = some image' ∧
        Progress orig orig.allRows (orig.rows .typeDef) image' next' := by
  induction rest generalizing before steps token image next with
  | nil =>
    obtain ⟨steps, rfl⟩ : ∃ n, steps = n + 1 := ⟨steps - 1, by omega⟩
    have hinfo := h.nextClass hrows hsmall hplan hclasses htoken
    rw [List.append_nil] at hclasses
    refine ⟨image, next, ?_, ?_⟩
    · rw [ILImage.sortFrom, hinfo]
      rfl
    · rw [allRows, hclasses]
      exact h
  | cons info rest ih =>
    obtain ⟨steps, rfl⟩ : ∃ n, steps = n + 1 := ⟨steps - 1, by omega⟩
    have hinfo := h.nextClass hrows hsmall hplan hclasses htoken
    have hclasses' : orig.rows .typeDef = (before ++ [info]) ++ rest := by
      rw [hclasses, List.append_assoc, List.singleton_append]
    have hstart := prefix_allRows hclasses'
    have hflat : (before ++ [info]).flatMap orig.classRows =
        before.flatMap orig.classRows ++ orig.classRows info := by
      rw [List.flatMap_append, List.flatMap_singleton]
    rw [hflat] at hstart
    obtain ⟨image', next', hrun, h'⟩ := h.assignMemberTokens hplan hstart
    have htoken' := h'.token_class hrows hsmall hplan hclasses rfl hstart
    rw [← hflat] at h'
    have hsteps' : rest.length < steps := Nat.lt_of_succ_lt_succ hsteps
    obtain ⟨image'', next'', hrun', h''⟩ := ih hclasses' hsteps' htoken' h'
    refine ⟨image'', next'', ?_, h''⟩
    rw [ILImage.sortFrom, hinfo]
    simp only [List.head?_cons, hrun]
    exact hrun'

/-- `SortClasses` gives out all the rows. -/
theorem exists_sortClasses (hrows : orig.Rows) (hsmall : orig.Small)
    (hplan : Plan orig orig.allRows) : ∃ image next, orig.sortClasses = some image ∧
      Progress orig orig.allRows (orig.rows .typeDef) image next := by
  apply Progress.sortFrom hrows hsmall hplan (List.nil_append _).symm ?_ ?_ (progress_start orig)
  · rw [← hrows.map_some (by simp [Table.Definition]), List.length_map]
    omega
  · exact Table.typeDef.toNat_row (n := 1) (by decide)

end ILImage

end Pnet.Image.Renumber
