import Mathlib.Data.List.ReduceOption
import Pnet.Image.Renumber
import Pnet.Lib.Bits

/-! What holds of every image that is built with fewer than `2 ^ 24` rows in each table: the rows of
the tables of definitions are numbered in order, and the lists of members and of parameters agree
with these tables. -/
namespace Pnet.Image.Renumber

open Lib

/-! ### Tokens -/

namespace Table

/-- The token of row `n`, where the first row has number one. -/
def row (table : Table) (n : Nat) : ILToken := table.token ||| BitVec.ofNat 32 n

/-- A table whose rows are only ever added while the image is built. -/
def Definition (table : Table) : Prop := table ≠ .typeRef ∧ table ≠ .memberRef

theorem exists_toNat_token (table : Table) :
    ∃ number < 2 ^ 7, table.token.toNat = 2 ^ 24 * number := by
  refine ⟨table.token.toNat / 2 ^ 24, ?_, ?_⟩
  · cases table <;> decide
  · cases table <;> decide

theorem token_injective : Function.Injective token := by
  intro table table' h
  cases table <;> cases table' <;> first | rfl | exact absurd h (by decide)

theorem find_token (table : Table) :
    (tables.find? fun other => other.token = table.token) = some table := by
  cases table <;> rfl

theorem toNat_row (table : Table) {n : Nat} (hn : n < 2 ^ 24) :
    (table.row n).toNat = table.token.toNat + n := by
  obtain ⟨number, hnumber, htoken⟩ := table.exists_toNat_token
  have hlow : (BitVec.ofNat 32 n).toNat = n := by
    rw [BitVec.toNat_ofNat]
    omega
  rw [row, Bits.toNat_or_low _ _ 24 (by omega) (by omega), hlow]

@[simp] theorem row_and_tokenMask (table : Table) {n : Nat} (hn : n < 2 ^ 24) :
    table.row n &&& tokenMask = table.token := by
  apply BitVec.eq_of_toNat_eq
  obtain ⟨number, hnumber, htoken⟩ := table.exists_toNat_token
  rw [Bits.toNat_and_field _ tokenMask 24 8 rfl, toNat_row table hn]
  omega

theorem toNat_row_and (table : Table) {n : Nat} (hn : n < 2 ^ 24) :
    (table.row n &&& ~~~tokenMask).toNat = n := by
  obtain ⟨number, hnumber, htoken⟩ := table.exists_toNat_token
  rw [Bits.toNat_and_mask _ (~~~tokenMask) 24 rfl, toNat_row table hn]
  omega

/-- The place of the row of a token. -/
theorem toNat_row_and_sub (table : Table) {n : Nat} (hn : n + 1 < 2 ^ 24) :
    ((table.row (n + 1) &&& ~~~tokenMask) - 1).toNat = n := by
  have hrow := toNat_row_and table hn
  rw [BitVec.toNat_sub, hrow]
  have hone : (1 : ILToken).toNat = 1 := rfl
  omega

end Table

variable {I : Type}

namespace ILImage

variable {image : ILImage I}

/-- No table has more rows than its tokens can number. -/
def Small (image : ILImage I) : Prop := ∀ table, (image.tokenData table).length < 2 ^ 24

theorem ilImageTokenInfo_row (image : ILImage I) (table : Table) {n : Nat} (hn : n + 1 < 2 ^ 24) :
    image.ilImageTokenInfo (table.row (n + 1)) = ((image.tokenData table)[n]?).join := by
  have hrow := table.toNat_row_and hn
  simp only [ilImageTokenInfo, table.row_and_tokenMask hn, table.find_token, hrow]
  simp

theorem isKind_iff {item : I} {table : Table} :
    image.isKind item table ↔ image.token item &&& tokenMask = table.token := by
  simp [isKind]

theorem isKind_of_token {item : I} {table : Table} {n : Nat} (hn : n < 2 ^ 24)
    (h : image.token item = table.row n) : image.isKind item table := by
  rw [isKind_iff, h, table.row_and_tokenMask hn]

theorem eq_of_isKind {item : I} {table table' : Table} (h : image.isKind item table)
    (h' : image.isKind item table') : table = table' := by
  rw [isKind_iff] at h h'
  exact Table.token_injective (h.symm.trans h')

/-! ### Rows -/

/-- The rows of the tables are numbered in order, and no item has two rows of one table. -/
structure Rows (image : ILImage I) : Prop where
  token : ∀ {table : Table}, table.Definition → ∀ {n : Nat}, n < (image.tokenData table).length →
    ∃ item, (image.tokenData table)[n]? = some (some item) ∧ image.token item = table.row (n + 1)
  unique : ∀ {table : Table} {m n : Nat} {item : I},
    (image.tokenData table)[m]? = some (some item) → (image.tokenData table)[n]? = some (some item) → m = n

/-- The items in the rows of a table. -/
def rows (image : ILImage I) (table : Table) : List I := (image.tokenData table).reduceOption

theorem mem_rows {table : Table} {item : I} :
    item ∈ image.rows table ↔ some item ∈ image.tokenData table :=
  List.reduceOption_mem_iff

theorem rows_nodup_of {data : List (Option I)}
    (h : ∀ {m n : Nat} {item : I}, data[m]? = some (some item) →
      data[n]? = some (some item) → m = n) :
    data.reduceOption.Nodup := by
  induction data with
  | nil => exact List.nodup_nil
  | cons first data ih =>
    have hrest : data.reduceOption.Nodup := by
      apply ih
      intro m n item hm hn
      have := h (m := m + 1) (n := n + 1) hm hn
      omega
    cases first with
    | none => exact hrest
    | some item =>
      rw [List.reduceOption_cons_of_some, List.nodup_cons]
      refine ⟨?_, hrest⟩
      intro hmem
      rw [List.reduceOption_mem_iff] at hmem
      obtain ⟨n, hn⟩ := List.mem_iff_getElem?.mp hmem
      have := h (m := 0) (n := n + 1) rfl hn
      omega

namespace Rows

variable (hrows : image.Rows)
include hrows

theorem isKind (hsmall : image.Small) {table : Table} (htable : table.Definition) {item : I}
    (hitem : some item ∈ image.tokenData table) : image.isKind item table := by
  obtain ⟨n, hn⟩ := List.mem_iff_getElem?.mp hitem
  have hlt : n < (image.tokenData table).length := (List.getElem?_eq_some_iff.mp hn).1
  obtain ⟨other, hother, htoken⟩ := hrows.token htable hlt
  rw [hn] at hother
  cases hother
  have := hsmall table
  exact isKind_of_token (by omega) htoken

theorem nodup (table : Table) : (image.rows table).Nodup :=
  rows_nodup_of fun hm hn => hrows.unique hm hn

theorem map_some {table : Table} (htable : table.Definition) :
    (image.rows table).map some = image.tokenData table := by
  have hall : ∀ row ∈ image.tokenData table, row.isSome := by
    intro row hrow
    obtain ⟨n, hn, rfl⟩ := List.getElem_of_mem hrow
    obtain ⟨item, hitem, -⟩ := hrows.token htable hn
    rw [List.getElem?_eq_getElem hn] at hitem
    rw [Option.some.inj hitem]
    rfl
  rw [rows]
  generalize image.tokenData table = data at hall
  induction data with
  | nil => rfl
  | cons first data ih =>
    obtain ⟨item, rfl⟩ := Option.isSome_iff_exists.mp (hall first (List.mem_cons_self ..))
    rw [List.reduceOption_cons_of_some, List.map_cons,
      ih fun row hrow => hall row (List.mem_cons_of_mem _ hrow)]

end Rows

/-! ### Lists -/

/-- The members of the classes and the parameters of the methods agree with the tables. -/
structure Lists (image : ILImage I) : Prop where
  member : ∀ {info member : I}, member ∈ image.members info → image.isKind member .memberRef ∨
    image.memberKind member ≠ .ref ∧ some member ∈ image.tokenData (image.memberKind member).table
  members_nodup : ∀ info, (image.members info).Nodup
  member_owner : ∀ {info info' member : I}, member ∈ image.members info →
    member ∈ image.members info' → info = info'
  param : ∀ {method param : I}, param ∈ image.parameters method →
    some method ∈ image.tokenData .method ∧ some param ∈ image.tokenData .param
  params_nodup : ∀ method, (image.parameters method).Nodup
  param_owner : ∀ {method method' param : I}, param ∈ image.parameters method →
    param ∈ image.parameters method' → method = method'
  row_param : ∀ {param : I}, some param ∈ image.tokenData .param →
    ∃ method, param ∈ image.parameters method

/-- Only rows of definitions are added, and a member that was a reference stays one or gets the row
of its kind. -/
theorem Lists.of_rows (hlists : image.Lists) (image' : ILImage I)
    (hmembers : image'.members = image.members) (hkind : image'.memberKind = image.memberKind)
    (hparameters : image'.parameters = image.parameters)
    (hdata : ∀ {table : Table}, table.Definition → ∀ {item : I},
      some item ∈ image.tokenData table → some item ∈ image'.tokenData table)
    (hparam : image'.tokenData .param = image.tokenData .param)
    (href : ∀ {info member : I}, member ∈ image.members info → image.isKind member .memberRef →
      image'.isKind member .memberRef ∨ image.memberKind member ≠ .ref ∧
        some member ∈ image'.tokenData (image.memberKind member).table) : image'.Lists where
  member := by
    intro info member hmember
    rw [hmembers] at hmember
    rw [hkind]
    rcases hlists.member hmember with hmemberRef | ⟨hne, hrow⟩
    · exact href hmember hmemberRef
    · refine Or.inr ⟨hne, hdata ?_ hrow⟩
      cases hcase : image.memberKind member <;> simp_all [MemberKind.table, Table.Definition]
  members_nodup := by
    rw [hmembers]
    exact hlists.members_nodup
  member_owner := by
    rw [hmembers]
    exact hlists.member_owner
  param := by
    intro method param h
    rw [hparameters] at h
    rw [hparam]
    obtain ⟨hmethod, hrow⟩ := hlists.param h
    exact ⟨hdata (by simp [Table.Definition]) hmethod, hrow⟩
  params_nodup := by
    rw [hparameters]
    exact hlists.params_nodup
  param_owner := by
    rw [hparameters]
    exact hlists.param_owner
  row_param := by
    intro param h
    rw [hparam] at h
    rw [hparameters]
    exact hlists.row_param h

/-! ### New rows -/

section SetToken

variable [DecidableEq I] {item : I} {table : Table}

theorem setToken_tokenData_self :
    (image.setToken item table).tokenData table = image.tokenData table ++ [some item] := by
  simp [setToken]

theorem setToken_tokenData_of_ne {other : Table} (h : other ≠ table) :
    (image.setToken item table).tokenData other = image.tokenData other := by
  simp [setToken, h]

theorem setToken_token_self :
    (image.setToken item table).token item = table.row ((image.tokenData table).length + 1) := by
  simp [setToken, Table.row]

theorem setToken_token_of_ne {other : I} (h : other ≠ item) :
    (image.setToken item table).token other = image.token other := by
  simp [setToken, h]

theorem mem_setToken {other : Table} {row : Option I} (h : row ∈ image.tokenData other) :
    row ∈ (image.setToken item table).tokenData other := by
  by_cases hother : other = table
  · subst hother
    rw [setToken_tokenData_self]
    exact List.mem_append_left _ h
  · rw [setToken_tokenData_of_ne hother]
    exact h

theorem self_mem_setToken : some item ∈ (image.setToken item table).tokenData table := by
  rw [setToken_tokenData_self]
  exact List.mem_append_right _ (List.mem_singleton_self _)

theorem small_of_setToken (hsmall : (image.setToken item table).Small) : image.Small := by
  intro other
  have hother := hsmall other
  by_cases h : other = table
  · subst h
    rw [setToken_tokenData_self, List.length_append, List.length_singleton] at hother
    omega
  · rwa [setToken_tokenData_of_ne h] at hother

theorem isKind_setToken_self (hsmall : (image.setToken item table).Small) :
    (image.setToken item table).isKind item table := by
  have hlength := hsmall table
  rw [setToken_tokenData_self, List.length_append, List.length_singleton] at hlength
  exact isKind_of_token hlength setToken_token_self

theorem isKind_setToken_of_ne {other : I} (h : other ≠ item) (kind : Table) :
    (image.setToken item table).isKind other kind = image.isKind other kind := by
  rw [isKind, isKind, setToken_token_of_ne h]

theorem Rows.setToken (hrows : image.Rows)
    (hdefinition : ∀ {other : Table}, other.Definition → some item ∉ image.tokenData other)
    (hnew : some item ∉ image.tokenData table) : (image.setToken item table).Rows where
  token := by
    intro other hother n hn
    by_cases h : n < (image.tokenData other).length
    · obtain ⟨old, hold, htoken⟩ := hrows.token hother h
      have hmem : some old ∈ image.tokenData other := List.mem_of_getElem? hold
      have hne : old ≠ item := by
        rintro rfl
        exact hdefinition hother hmem
      refine ⟨old, ?_, by rw [setToken_token_of_ne hne, htoken]⟩
      by_cases htable : other = table
      · subst htable
        rw [setToken_tokenData_self, List.getElem?_append_left h, hold]
      · rw [setToken_tokenData_of_ne htable, hold]
    · by_cases htable : other = table
      · subst htable
        rw [setToken_tokenData_self, List.length_append, List.length_singleton] at hn
        obtain rfl : n = (image.tokenData other).length := by omega
        refine ⟨item, ?_, setToken_token_self⟩
        rw [setToken_tokenData_self, List.getElem?_concat_length]
      · rw [setToken_tokenData_of_ne htable] at hn
        exact absurd hn h
  unique := by
    intro other m n old hm hn
    by_cases htable : other = table
    · subst htable
      rw [setToken_tokenData_self] at hm hn
      -- A row of the item is the last one.
      have hlast : ∀ {k : Nat}, (image.tokenData other ++ [some item])[k]? = some (some old) →
          (image.tokenData other)[k]? = some (some old) ∨
            old = item ∧ k = (image.tokenData other).length := by
        intro k hk
        by_cases h : k < (image.tokenData other).length
        · rw [List.getElem?_append_left h] at hk
          exact Or.inl hk
        · have hlt := (List.getElem?_eq_some_iff.mp hk).1
          rw [List.length_append, List.length_singleton] at hlt
          obtain rfl : k = (image.tokenData other).length := by omega
          rw [List.getElem?_concat_length] at hk
          cases hk
          exact Or.inr ⟨rfl, rfl⟩
      rcases hlast hm with hold | ⟨rfl, hlength⟩
      · rcases hlast hn with hold' | ⟨rfl, -⟩
        · exact hrows.unique hold hold'
        · exact absurd (List.mem_of_getElem? hold) hnew
      · rcases hlast hn with hold' | ⟨-, hlength'⟩
        · exact absurd (List.mem_of_getElem? hold') hnew
        · exact hlength.trans hlength'.symm
    · rw [setToken_tokenData_of_ne htable] at hm hn
      exact hrows.unique hm hn

end SetToken

/-- What holds of the images that are built. -/
structure Numbered (image : ILImage I) : Prop where
  rows : image.Rows
  lists : image.Lists
  noMaps : image.propertyMaps = [] ∧ image.eventMaps = []

end ILImage

namespace BuildOp

variable [DecidableEq I] {image : ILImage I}

open ILImage

/-- An operation that only gives an item a new row. -/
theorem numbered_setToken (hnumbered : image.Numbered) {item : I} {table : Table}
    (hsmall : (image.setToken item table).Small) (htable : table ≠ .param)
    (hdefinition : ∀ {other : Table}, other.Definition → some item ∉ image.tokenData other)
    (hnew : some item ∉ image.tokenData table)
    (href : ∀ {info : I}, item ∈ image.members info → image.isKind item .memberRef →
      image.memberKind item ≠ .ref ∧ (image.memberKind item).table = table) :
    (image.setToken item table).Numbered where
  rows := hnumbered.rows.setToken hdefinition hnew
  lists := by
    apply hnumbered.lists.of_rows (image.setToken item table) rfl rfl rfl
    · intro other _ old hold
      exact mem_setToken hold
    · exact setToken_tokenData_of_ne htable.symm
    · intro info member hmember hkind
      by_cases h : member = item
      · subst h
        obtain ⟨hne, htable'⟩ := href hmember hkind
        rw [htable']
        exact Or.inr ⟨hne, self_mem_setToken⟩
      · rw [isKind_setToken_of_ne h]
        exact Or.inl hkind
  noMaps := hnumbered.noMaps

/-- A reference has no row of a definition. -/
theorem notMem_of_isKind (hnumbered : image.Numbered) (hsmall : image.Small) {item : I}
    {table : Table} (hitem : image.isKind item table) (htable : ¬ table.Definition) {other : Table}
    (hother : other.Definition) : some item ∉ image.tokenData other := by
  intro hmem
  have hkind := hnumbered.rows.isKind hsmall hother hmem
  rw [eq_of_isKind hkind hitem] at hother
  exact htable hother

theorem table_definition {kind : MemberKind} (hkind : kind ≠ .ref) :
    kind.table.Definition ∧ kind.table ≠ .param := by
  cases kind <;> simp_all [MemberKind.table, Table.Definition]

theorem numbered_memberCreate (hnumbered : image.Numbered) {info member : I} {kind : MemberKind}
    {reference : Bool} (hsmall : ((memberCreate info member kind reference).run image).Small)
    (hfresh : Fresh image member) :
    ((memberCreate info member kind reference).run image).Numbered where
  rows := by
    have hrows : ({ image with
        members := Function.update image.members info (image.members info ++ [member])
        memberKind := Function.update image.memberKind member kind } : ILImage I).Rows :=
      ⟨hnumbered.rows.token, hnumbered.rows.unique⟩
    exact hrows.setToken (fun _ => hfresh.row _) (hfresh.row _)
  lists := by
    have hlists := hnumbered.lists
    have hmembers : ∀ {info' member' : I}, member' ∈ Function.update image.members info
        (image.members info ++ [member]) info' → member' = member ∧ info' = info ∨
          member' ≠ member ∧ member' ∈ image.members info' := by
      intro info' member' h
      by_cases hinfo : info' = info
      · subst hinfo
        rw [Function.update_self, List.mem_append, List.mem_singleton] at h
        rcases h with hold | rfl
        · refine Or.inr ⟨?_, hold⟩
          rintro rfl
          exact hfresh.member _ hold
        · exact Or.inl ⟨rfl, rfl⟩
      · rw [Function.update_of_ne hinfo] at h
        refine Or.inr ⟨?_, h⟩
        rintro rfl
        exact hfresh.member _ h
    have htable : (if reference then Table.memberRef else kind.table) ≠ .param := by
      cases reference <;> cases kind <;> simp [MemberKind.table]
    refine ⟨?_, ?_, ?_, ?_, hlists.params_nodup, hlists.param_owner, ?_⟩
    · intro info' member' h
      rcases hmembers h with ⟨rfl, rfl⟩ | ⟨hne, hold⟩
      · by_cases href : reference ∨ kind = .ref
        · left
          have hself := isKind_setToken_self hsmall
          have hif : (if reference then Table.memberRef else kind.table) = .memberRef := by
            rcases href with rfl | rfl
            · rfl
            · cases reference <;> rfl
          rw [hif] at hself
          simpa [run, hif] using hself
        · right
          obtain ⟨hreference, hkind⟩ := not_or.mp href
          simp only [run, setToken, Function.update_self, hreference, Bool.false_eq_true, if_false]
          exact ⟨hkind, List.mem_append_right _ (List.mem_singleton_self _)⟩
      · rcases hlists.member hold with hkind | ⟨hkind, hrow⟩
        · left
          exact (isKind_setToken_of_ne hne _).trans hkind
        · right
          have hsame : ((memberCreate info member kind reference).run image).memberKind member' =
              image.memberKind member' := Function.update_of_ne hne _ _
          rw [hsame]
          exact ⟨hkind, mem_setToken hrow⟩
    · intro info'
      change (Function.update image.members info (image.members info ++ [member]) info').Nodup
      by_cases hinfo : info' = info
      · subst hinfo
        rw [Function.update_self, ← List.concat_eq_append]
        exact (hlists.members_nodup _).concat (hfresh.member _)
      · rw [Function.update_of_ne hinfo]
        exact hlists.members_nodup _
    · intro info' info'' member' h h'
      rcases hmembers h with ⟨rfl, rfl⟩ | ⟨hne, hold⟩
      · rcases hmembers h' with ⟨-, rfl⟩ | ⟨hne, -⟩
        · rfl
        · exact absurd rfl hne
      · rcases hmembers h' with ⟨rfl, -⟩ | ⟨-, hold'⟩
        · exact absurd rfl hne
        · exact hlists.member_owner hold hold'
    · intro method param h
      obtain ⟨hmethod, hparam⟩ := hlists.param h
      exact ⟨mem_setToken hmethod, mem_setToken hparam⟩
    · intro param h
      apply hlists.row_param
      simp only [run] at h
      rwa [setToken_tokenData_of_ne htable.symm] at h
  noMaps := hnumbered.noMaps

theorem numbered_fieldNewToken (hnumbered : image.Numbered) {info field : I}
    (hsmall : ((fieldNewToken info field).run image).Small) (hsmall' : image.Small)
    (hpossible : (fieldNewToken info field).Possible image) :
    ((fieldNewToken info field).run image).Numbered := by
  obtain ⟨hfield, hkind, href⟩ := hpossible
  have hmem : ∀ {info' member : I}, member ∈ Function.update image.members info
      ((image.members info).erase field ++ [field]) info' ↔ member ∈ image.members info' := by
    intro info' member
    by_cases hinfo : info' = info
    · subst hinfo
      rw [Function.update_self]
      exact (List.perm_append_comm.trans (List.perm_cons_erase hfield).symm).mem_iff
    · rw [Function.update_of_ne hinfo]
  -- The class has the same members in another order.
  have hmoved : ({ image with
      members := Function.update image.members info
        ((image.members info).erase field ++ [field]) } : ILImage I).Numbered := by
    refine ⟨⟨hnumbered.rows.token, hnumbered.rows.unique⟩, ?_, hnumbered.noMaps⟩
    have hlists := hnumbered.lists
    refine ⟨fun h => hlists.member (hmem.mp h), ?_,
      fun h h' => hlists.member_owner (hmem.mp h) (hmem.mp h'), hlists.param,
      hlists.params_nodup, hlists.param_owner, hlists.row_param⟩
    intro info'
    change (Function.update image.members info ((image.members info).erase field ++ [field])
      info').Nodup
    by_cases hinfo : info' = info
    · subst hinfo
      rw [Function.update_self]
      exact ((List.perm_append_comm.trans (List.perm_cons_erase hfield).symm).nodup_iff).mpr
        (hlists.members_nodup _)
    · rw [Function.update_of_ne hinfo]
      exact hlists.members_nodup _
  have hnotMem : ∀ {other : Table}, other.Definition → some field ∉ image.tokenData other :=
    fun hother => notMem_of_isKind hnumbered hsmall' href (by simp [Table.Definition]) hother
  refine numbered_setToken hmoved hsmall (by decide) hnotMem (hnotMem (by simp [Table.Definition])) ?_
  intro info' _ _
  change image.memberKind field ≠ .ref ∧ (image.memberKind field).table = .field
  rw [hkind]
  exact ⟨by decide, rfl⟩

theorem numbered_parameterCreate (hnumbered : image.Numbered) {method param : I} {posn : Nat}
    (hpossible : (parameterCreate method param posn).Possible image) :
    ((parameterCreate method param posn).run image).Numbered := by
  obtain ⟨hfresh, -, hmethod⟩ := hpossible
  have hlists := hnumbered.lists
  have hperm : ((image.parameters method).take posn ++ param ::
      (image.parameters method).drop posn).Perm (param :: image.parameters method) := by
    have hmiddle := @List.perm_middle _ param ((image.parameters method).take posn)
      ((image.parameters method).drop posn)
    rwa [List.take_append_drop] at hmiddle
  have hmem : ∀ {method' param' : I}, param' ∈ Function.update image.parameters method
      ((image.parameters method).take posn ++ param :: (image.parameters method).drop posn) method' →
      param' = param ∧ method' = method ∨ param' ≠ param ∧ param' ∈ image.parameters method' := by
    intro method' param' h
    by_cases hmethod' : method' = method
    · subst hmethod'
      rw [Function.update_self, hperm.mem_iff, List.mem_cons] at h
      rcases h with rfl | hold
      · exact Or.inl ⟨rfl, rfl⟩
      · refine Or.inr ⟨?_, hold⟩
        rintro rfl
        exact hfresh.param _ hold
    · rw [Function.update_of_ne hmethod'] at h
      refine Or.inr ⟨?_, h⟩
      rintro rfl
      exact hfresh.param _ h
  constructor
  · have hrows : ({ image with
        parameters := Function.update image.parameters method
          ((image.parameters method).take posn ++ param ::
            (image.parameters method).drop posn) } : ILImage I).Rows :=
      ⟨hnumbered.rows.token, hnumbered.rows.unique⟩
    exact hrows.setToken (fun _ => hfresh.row _) (hfresh.row _)
  · refine ⟨?_, hlists.members_nodup, hlists.member_owner, ?_, ?_, ?_, ?_⟩
    · intro info member h
      have hne : member ≠ param := by
        rintro rfl
        exact hfresh.member _ h
      rcases hlists.member h with hkind | ⟨hkind, hrow⟩
      · exact Or.inl ((isKind_setToken_of_ne hne _).trans hkind)
      · exact Or.inr ⟨hkind, mem_setToken hrow⟩
    · intro method' param' h
      rcases hmem h with ⟨rfl, rfl⟩ | ⟨-, hold⟩
      · exact ⟨mem_setToken hmethod, self_mem_setToken⟩
      · obtain ⟨hrow, hparam⟩ := hlists.param hold
        exact ⟨mem_setToken hrow, mem_setToken hparam⟩
    · intro method'
      change (Function.update image.parameters method _ method').Nodup
      by_cases hmethod' : method' = method
      · subst hmethod'
        rw [Function.update_self, hperm.nodup_iff, List.nodup_cons]
        exact ⟨hfresh.param _, hlists.params_nodup _⟩
      · rw [Function.update_of_ne hmethod']
        exact hlists.params_nodup _
    · intro method' method'' param' h h'
      rcases hmem h with ⟨rfl, rfl⟩ | ⟨hne, hold⟩
      · rcases hmem h' with ⟨-, rfl⟩ | ⟨hne, -⟩
        · rfl
        · exact absurd rfl hne
      · rcases hmem h' with ⟨rfl, -⟩ | ⟨-, hold'⟩
        · exact absurd rfl hne
        · exact hlists.param_owner hold hold'
    · intro param' h
      simp only [run] at h
      rw [setToken_tokenData_self, List.mem_append, List.mem_singleton] at h
      by_cases hne : param' = param
      · subst hne
        refine ⟨method, ?_⟩
        change param' ∈ Function.update image.parameters method _ method
        rw [Function.update_self, hperm.mem_iff]
        exact List.mem_cons_self
      · obtain ⟨method', hold⟩ := hlists.row_param (h.resolve_right fun heq => hne (by cases heq; rfl))
        refine ⟨method', ?_⟩
        change param' ∈ Function.update image.parameters method _ method'
        by_cases hmethod' : method' = method
        · subst hmethod'
          rw [Function.update_self, hperm.mem_iff]
          exact List.mem_cons_of_mem _ hold
        · rwa [Function.update_of_ne hmethod']
  · exact hnumbered.noMaps

theorem numbered_classSpec (hnumbered : image.Numbered) (hsmall : image.Small) {info : I}
    {token : ILToken} (hpossible : (classSpec info token).Possible image) :
    ((classSpec info token).run image).Numbered := by
  have hnotMem : ∀ {other : Table}, other.Definition → some info ∉ image.tokenData other :=
    fun hother => notMem_of_isKind hnumbered hsmall hpossible.1 (by simp [Table.Definition]) hother
  have htoken : ∀ {item : I}, item ≠ info →
      ((classSpec info token).run image).token item = image.token item :=
    fun hne => Function.update_of_ne hne _ _
  refine ⟨⟨?_, hnumbered.rows.unique⟩, ?_, hnumbered.noMaps⟩
  · intro table htable n hn
    obtain ⟨item, hitem, hrow⟩ := hnumbered.rows.token htable hn
    refine ⟨item, hitem, ?_⟩
    rw [htoken, hrow]
    rintro rfl
    exact hnotMem htable (List.mem_of_getElem? hitem)
  · apply hnumbered.lists.of_rows ((classSpec info token).run image) rfl rfl rfl
    · intro table _ item hitem
      exact hitem
    · rfl
    · intro _ member _ hkind
      left
      have hne : member ≠ info := by
        rintro rfl
        exact absurd (eq_of_isKind hkind hpossible.1) (by decide)
      rw [isKind, htoken hne]
      exact hkind

theorem numbered_dropRef (hnumbered : image.Numbered) {table : Table} {row : Nat}
    (htable : table = .typeRef ∨ table = .memberRef) :
    ((dropRef table row).run image).Numbered := by
  have hdata : ∀ {other : Table}, other.Definition →
      ((dropRef table row).run image).tokenData other = image.tokenData other := by
    intro other hother
    apply Function.update_of_ne
    rintro rfl
    rcases htable with h | h
    · exact hother.1 h
    · exact hother.2 h
  refine ⟨⟨?_, ?_⟩, ?_, hnumbered.noMaps⟩
  · intro other hother n hn
    rw [hdata hother] at hn ⊢
    exact hnumbered.rows.token hother hn
  · intro other m n item hm hn
    by_cases h : other = table
    · subst h
      simp only [run, Function.update_self, List.getElem?_set] at hm hn
      have hold : ∀ {k : Nat}, (if row = k then
          if row < (image.tokenData other).length then some none else none
          else (image.tokenData other)[k]?) = some (some item) →
          (image.tokenData other)[k]? = some (some item) := by
        intro k hk
        split at hk
        · split at hk <;> cases hk
        · exact hk
      exact hnumbered.rows.unique (hold hm) (hold hn)
    · simp only [run, Function.update_of_ne h] at hm hn
      exact hnumbered.rows.unique hm hn
  · apply hnumbered.lists.of_rows ((dropRef table row).run image) rfl rfl rfl
    · intro other hother item hitem
      rwa [hdata hother]
    · exact hdata (by simp [Table.Definition])
    · intro _ member _ hkind
      exact Or.inl hkind

theorem small_of_run {op : BuildOp I} (hsmall : (op.run image).Small) : image.Small := by
  cases op with
  | classSpec info token => exact hsmall
  | nestedCreate child parent => exact hsmall
  | dropRef table row =>
    intro other
    have hother := hsmall other
    by_cases h : other = table
    · subst h
      simpa [run] using hother
    · simpa [run, h] using hother
  | memberCreate info member kind reference =>
    have h := small_of_setToken hsmall
    exact h
  | fieldNewToken info field =>
    have h := small_of_setToken hsmall
    exact h
  | parameterCreate method param posn =>
    have h := small_of_setToken hsmall
    exact h
  | _ => exact small_of_setToken hsmall

/-- Each operation keeps the tables numbered. -/
theorem numbered_run (hnumbered : image.Numbered) {op : BuildOp I} (hpossible : op.Possible image)
    (hsmall : (op.run image).Small) : (op.run image).Numbered := by
  have hsmall' := small_of_run hsmall
  cases op with
  | classCreate info =>
    exact numbered_setToken hnumbered hsmall (by decide) (fun _ => hpossible.row _) (hpossible.row _)
      fun h => absurd h (hpossible.member _)
  | classCreateRef info =>
    exact numbered_setToken hnumbered hsmall (by decide) (fun _ => hpossible.row _) (hpossible.row _)
      fun h => absurd h (hpossible.member _)
  | classConvert info =>
    have hnotMem : ∀ {other : Table}, other.Definition → some info ∉ image.tokenData other :=
      fun hother => notMem_of_isKind hnumbered hsmall' hpossible (by simp [Table.Definition]) hother
    exact numbered_setToken hnumbered hsmall (by decide) hnotMem (hnotMem (by simp [Table.Definition]))
      fun _ hkind => absurd (eq_of_isKind hkind hpossible) (by decide)
  | classSpec info token => exact numbered_classSpec hnumbered hsmall' hpossible
  | memberCreate info member kind reference =>
    exact numbered_memberCreate hnumbered hsmall hpossible
  | memberRefCreate member =>
    exact numbered_setToken hnumbered hsmall (by decide) (fun _ => hpossible.row _) (hpossible.row _)
      fun h => absurd h (hpossible.member _)
  | methodNewToken info method =>
    obtain ⟨hmethod, hkind, href⟩ := hpossible
    have hnotMem : ∀ {other : Table}, other.Definition → some method ∉ image.tokenData other :=
      fun hother => notMem_of_isKind hnumbered hsmall' href (by simp [Table.Definition]) hother
    refine numbered_setToken hnumbered hsmall (by decide) hnotMem
      (hnotMem (by simp [Table.Definition])) ?_
    intro _ _ _
    rw [hkind]
    exact ⟨by decide, rfl⟩
  | fieldNewToken info field => exact numbered_fieldNewToken hnumbered hsmall hsmall' hpossible
  | parameterCreate method param posn => exact numbered_parameterCreate hnumbered hpossible
  | nestedCreate child parent =>
    have hlists := hnumbered.lists
    exact ⟨⟨hnumbered.rows.token, hnumbered.rows.unique⟩, ⟨hlists.member, hlists.members_nodup,
      hlists.member_owner, hlists.param, hlists.params_nodup, hlists.param_owner,
      hlists.row_param⟩, hnumbered.noMaps⟩
  | dropRef table row => exact numbered_dropRef hnumbered hpossible

end BuildOp

theorem Built.numbered [DecidableEq I] {image : ILImage I} (hbuilt : Built image)
    (hsmall : image.Small) : image.Numbered := by
  induction hbuilt with
  | start token memberKind =>
    refine ⟨⟨?_, ?_⟩, ⟨?_, ?_, ?_, ?_, ?_, ?_, ?_⟩, rfl, rfl⟩ <;> simp [ILImage.empty]
  | step _ op hpossible ih =>
    exact BuildOp.numbered_run (ih (BuildOp.small_of_run hsmall)) hpossible hsmall

end Pnet.Image.Renumber
