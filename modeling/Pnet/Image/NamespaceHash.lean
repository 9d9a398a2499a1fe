import Pnet.Image.ClassHash

/-! The two hash tables of a context, `image/context.c`, as `image/class.c` keeps them: the
name records of the classes, and for each namespace one record that has it. Name records
are numbered in the order in which they are allocated, and allocation is taken to succeed. -/
namespace Pnet.Image.ClassHash
open Pnet.Support

/-- `IL_CONTEXT_NS_HASH_SIZE` -/
def ilContextNsHashSize : Nat := 67

section Hash

variable {N P Im : Type}

def namespaceHashCompute (classInfo : ILClassName N P Im) : Nat :=
  match classInfo.nameSpace with
  | some nameSpace => (hashIgnoreCase 0 nameSpace.chars).toNat
  | none => 0

def namespaceHashKeyCompute (key : Option CString) : Nat :=
  match key with
  | some key => (hashIgnoreCase 0 key.chars).toNat
  | none => 0

def namespaceHashMatch (classInfo : ILClassName N P Im) (key : Option CString) : Bool :=
  match classInfo.nameSpace with
  | some nameSpace => key.any fun key => compareText nameSpace key.chars
  | none => key.isNone

end Hash

variable {P Im : Type}

/-- `info` is the memory of the name records, of which `allocated` are in use. -/
structure ILContext (P Im : Type) where
  info : Nat → ILClassName Nat P Im
  allocated : Nat
  classHash : ILHashTable Nat
  namespaceHash : ILHashTable Nat

/-- What `_ILContextPersistString` makes of a text in an image: a copy in the heap of one
that is being built, the text itself in another one, or nothing. -/
structure PersistString where
  run : CString → Option CString
  chars_eq : ∀ str str', run str = some str' → str'.chars = str.chars

/-- The program items as they are at some time. -/
structure ProgramItems (P Im : Type) where
  token : P → ILUInt32
  imageOf : P → Im

/-- A request for a class by its scope and its name. -/
structure ClassRequest (P : Type) where
  scopeItem : Option P
  scopeName : Option Nat
  hasScope : scopeItem ≠ none ∨ scopeName ≠ none
  name : CString
  nameSpace : Option CString

def ilContextCreate (memory : Nat → ILClassName Nat P Im) : ILContext P Im :=
  ⟨memory, 0, ilHashCreate Nat ilContextHashSize, ilHashCreate Nat ilContextNsHashSize⟩

namespace ILContext

def names (context : ILContext P Im) (items : ProgramItems P Im) : ClassNames Nat P Im :=
  ⟨context.info, items.token, items.imageOf⟩

def classKey (context : ILContext P Im) (n : Nat) : Nat := classHashCompute (context.info n)

def namespaceKey (context : ILContext P Im) (n : Nat) : Nat := namespaceHashCompute (context.info n)

/-- `ILHashFind(context->namespaceHash, namespace)` -/
def findNamespace (context : ILContext P Im) (nameSpace : Option CString) : Option (Option Nat) :=
  ilHashFindAlt context.namespaceHash nameSpace namespaceHashKeyCompute
    fun n key => namespaceHashMatch (context.info n) key

end ILContext

/-- The record that is allocated, before it is in a table. -/
def newClassName (image : Im) (persist : PersistString) (request : ClassRequest P) :
    Option (ILClassName Nat P Im) :=
  match persist.run request.name, request.nameSpace with
  | none, _ => none
  | some name, none =>
    some ⟨image, name, none, request.scopeItem, request.scopeName, request.hasScope⟩
  | some name, some nameSpace =>
    match persist.run nameSpace with
    | none => none
    | some nameSpace =>
      some ⟨image, name, some nameSpace, request.scopeItem, request.scopeName, request.hasScope⟩

/-- The outer `none` is a walk that does not end; the record is `none` if the text of a name
cannot be kept. -/
def ilClassNameCreate (context : ILContext P Im) (image : Im) (persist : PersistString)
    (request : ClassRequest P) : Option (ILContext P Im × Option Nat) :=
  let className := context.allocated
  match newClassName image persist request with
  | none => some ({ context with allocated := className + 1 }, none)
  | some info =>
    let context : ILContext P Im :=
      { context with info := Function.update context.info className info,
                     allocated := className + 1 }
    -- Add the class name to the class name hash
    let context := { context with classHash := ilHashAdd context.classKey context.classHash className }
    -- Add the namespace to the context's namespace table if not present
    match request.nameSpace with
    | none => some (context, some className)
    | some nameSpace =>
      match context.findNamespace (some nameSpace) with
      | none => none
      | some (some _) => some (context, some className)
      | some none =>
        some ({ context with
          namespaceHash := ilHashAdd context.namespaceKey context.namespaceHash className },
          some className)

variable [DecidableEq P] [DecidableEq Im]

def ilClassNameLookup (context : ILContext P Im) (items : ProgramItems P Im)
    (request : ClassRequest P) : Option (ILContext P Im × Option Nat) :=
  let found := classHashFind (context.names items) context.classHash
    ⟨request.name.chars, request.nameSpace.map CString.chars, request.scopeItem,
      request.scopeName, none, false, false⟩
  match found, request.scopeItem with
  | none, _ => none
  | some none, _ => some (context, none)
  | some (some className), none => some (context, some className)
  | some (some className), some scopeItem =>
    if (context.info className).scope = none then
      -- Update the scope item now that we know what it should be
      let info : ILClassName Nat P Im :=
        { context.info className with scope := some scopeItem, hasScope := .inl (by simp) }
      some ({ context with info := Function.update context.info className info }, some className)
    else some (context, some className)

/-- What all that make classes do for the name: `CreateClass`, `ILExportedTypeCreate` and the
loaders of type definitions and references. -/
def createClass (context : ILContext P Im) (items : ProgramItems P Im) (image : Im)
    (persist : PersistString) (request : ClassRequest P) :
    Option (ILContext P Im × Option Nat) :=
  match ilClassNameLookup context items request with
  | none => none
  | some (context, some className) => some (context, some className)
  | some (context, none) => ilClassNameCreate context image persist request

omit [DecidableEq P] in
def ilClassRemoveAllFromHash (context : ILContext P Im) (image : Im) : Option (ILContext P Im) :=
  let match' (className : Nat) (key : Im) : Bool := (context.info className).image = key
  match ilHashRemoveSubset context.classHash match' image,
      ilHashRemoveSubset context.namespaceHash match' image with
  | some classHash, some namespaceHash =>
    some { context with classHash := classHash, namespaceHash := namespaceHash }
  | _, _ => none

omit [DecidableEq P] [DecidableEq Im] in
/-- "The empty namespace name is always valid" -/
def ilClassNamespaceIsValid (context : ILContext P Im) (nspace : Option CString) : Option Bool :=
  match nspace with
  | some nspace => (context.findNamespace (some nspace)).map Option.isSome
  | none => some true

/-! ### Runs -/

inductive ContextOp (P Im : Type) where
  | create (items : ProgramItems P Im) (image : Im) (persist : PersistString)
      (request : ClassRequest P)
  | destroy (image : Im)

namespace ContextOp

def run (context : ILContext P Im) : ContextOp P Im → Option (ILContext P Im)
  | create items image persist request =>
    (createClass context items image persist request).map Prod.fst
  | destroy image => ilClassRemoveAllFromHash context image

def runAll : ILContext P Im → List (ContextOp P Im) → Option (ILContext P Im)
  | context, [] => some context
  | context, op :: ops => (op.run context).bind fun context => runAll context ops

end ContextOp

end Pnet.Image.ClassHash

/-! ### What is found

When the namespaces that a context takes for valid are those of its classes. A namespace
goes with the image of the record that stands for it, also when a class of another image
has it. -/
namespace Pnet.Image.ClassHash
open Pnet.Support

variable {P Im : Type}

namespace ILContext

variable (context : ILContext P Im)

def spaceText (n : Nat) : Option (List ILUInt8) :=
  (context.info n).nameSpace.map CString.chars

/-- Some class in the context has the namespace. -/
def HasNamespace (nameSpace : List ILUInt8) : Prop :=
  ∃ n ∈ context.classHash.contents, context.spaceText n = some nameSpace

/-- What `ILClassNamespaceIsValid` should say about each namespace. -/
def NamespacesValid : Prop :=
  ∀ nspace : CString, ∃ valid, ilClassNamespaceIsValid context (some nspace) = some valid ∧
    (valid = true ↔ context.HasNamespace nspace.chars)

/-- No class of another image has a namespace for which a record of this image stands. -/
def SparesOthers (image : Im) : Prop :=
  ∀ n ∈ context.classHash.contents, (context.info n).image ≠ image →
    ∀ r ∈ context.namespaceHash.contents, (context.info r).image = image →
      context.spaceText r ≠ context.spaceText n

/-- The two hash tables, whatever is in them. -/
structure TablesInv : Prop where
  classHash : ∃ chains, context.classHash.Inv context.classKey chains
  namespaceHash : ∃ chains, context.namespaceHash.Inv context.namespaceKey chains
  classes_lt : ∀ n ∈ context.classHash.contents, n < context.allocated
  namespaces_lt : ∀ n ∈ context.namespaceHash.contents, n < context.allocated

/-- The records of the namespace table are classes with different namespaces. -/
structure StandIns : Prop extends TablesInv context where
  isClass : ∀ r ∈ context.namespaceHash.contents, r ∈ context.classHash.contents
  hasSpace : ∀ r ∈ context.namespaceHash.contents, context.spaceText r ≠ none
  unique : ∀ r ∈ context.namespaceHash.contents, ∀ r' ∈ context.namespaceHash.contents,
    context.spaceText r = context.spaceText r' → r = r'

/-- Some record of the namespace table has the namespace of the class. -/
def StoodFor (n : Nat) : Prop :=
  context.spaceText n ≠ none →
    ∃ r ∈ context.namespaceHash.contents, context.spaceText r = context.spaceText n

structure NamespaceInv : Prop extends StandIns context where
  stoodFor : ∀ n ∈ context.classHash.contents, context.StoodFor n

end ILContext

section Find

variable {context : ILContext P Im}

theorem namespaceHashMatch_iff {N : Type} (info : ILClassName N P Im) (key : CString) :
    namespaceHashMatch info (some key) = true ↔
      info.nameSpace.map CString.chars = some key.chars := by
  unfold namespaceHashMatch
  cases info.nameSpace with
  | none => simp
  | some nameSpace => simp [compareText_chars_iff]

theorem namespaceHashCompute_of_match {N : Type} {info : ILClassName N P Im} {key : CString}
    (h : info.nameSpace.map CString.chars = some key.chars) :
    namespaceHashCompute info = namespaceHashKeyCompute (some key) := by
  unfold namespaceHashCompute namespaceHashKeyCompute
  cases hspace : info.nameSpace with
  | none =>
    rw [hspace] at h
    cases h
  | some nameSpace =>
    rw [hspace, Option.map_some, Option.some.injEq] at h
    simp only [h]

/-- A search of the namespace table finds a record with the namespace if one is in there. -/
theorem findNamespace_spec (h : context.TablesInv) (key : CString) :
    ∃ found, context.findNamespace (some key) = some found ∧
      (found ≠ none ↔
        ∃ r ∈ context.namespaceHash.contents, context.spaceText r = some key.chars) := by
  obtain ⟨chains, hinv⟩ := h.namespaceHash
  obtain ⟨found, hfind, hsome, hnone⟩ := hinv.find (some key) namespaceHashKeyCompute
    (fun n key => namespaceHashMatch (context.info n) key)
    fun n _ hmatch => namespaceHashCompute_of_match ((namespaceHashMatch_iff _ _).1 hmatch)
  refine ⟨found, hfind, ?_⟩
  cases found with
  | none =>
    apply iff_of_false (by simp)
    rintro ⟨r, hr, htext⟩
    exact hnone rfl r hr ((namespaceHashMatch_iff _ _).2 htext)
  | some r =>
    obtain ⟨hr, hmatch⟩ := hsome r rfl
    exact iff_of_true (by simp) ⟨r, hr, (namespaceHashMatch_iff _ _).1 hmatch⟩

theorem ilClassNamespaceIsValid_spec (h : context.TablesInv) (nspace : CString) :
    ∃ valid, ilClassNamespaceIsValid context (some nspace) = some valid ∧ (valid = true ↔
      ∃ r ∈ context.namespaceHash.contents, context.spaceText r = some nspace.chars) := by
  obtain ⟨found, hfind, hiff⟩ := findNamespace_spec h nspace
  refine ⟨found.isSome, ?_, ?_⟩
  · simp [ilClassNamespaceIsValid, hfind]
  · rw [← hiff, Option.isSome_iff_ne_none]

/-- The answers are right if and only if a namespace is in the table when a class has it. -/
theorem namespacesValid_iff (h : context.TablesInv) :
    context.NamespacesValid ↔ ∀ nspace : CString,
      (∃ r ∈ context.namespaceHash.contents, context.spaceText r = some nspace.chars) ↔
        context.HasNamespace nspace.chars := by
  unfold ILContext.NamespacesValid
  apply forall_congr'
  intro nspace
  obtain ⟨valid, hvalid, hiff⟩ := ilClassNamespaceIsValid_spec h nspace
  simp [hvalid, hiff]

theorem exists_cstring {n : Nat} {nameSpace : List ILUInt8}
    (h : context.spaceText n = some nameSpace) : ∃ nspace : CString, nspace.chars = nameSpace := by
  unfold ILContext.spaceText at h
  obtain ⟨nspace, _, hchars⟩ := Option.map_eq_some_iff.1 h
  exact ⟨nspace, hchars⟩

theorem ILContext.NamespaceInv.valid (h : context.NamespaceInv) : context.NamespacesValid := by
  rw [namespacesValid_iff h.toTablesInv]
  intro nspace
  constructor
  · rintro ⟨r, hr, htext⟩
    exact ⟨r, h.isClass r hr, htext⟩
  · rintro ⟨n, hn, htext⟩
    obtain ⟨r, hr, hsame⟩ := h.stoodFor n hn (by simp [htext])
    exact ⟨r, hr, hsame.trans htext⟩

end Find

/-! ### Making classes -/

section Create

variable {context : ILContext P Im}

/-- A record is written that is not in a table. -/
theorem ILContext.TablesInv.alloc (h : context.TablesInv) (info : ILClassName Nat P Im) :
    ({ context with
      info := Function.update context.info context.allocated info
      allocated := context.allocated + 1 } : ILContext P Im).TablesInv := by
  have hold : ∀ n < context.allocated,
      Function.update context.info context.allocated info n = context.info n :=
    fun n hn => Function.update_of_ne hn.ne _ _
  obtain ⟨chains, hclass⟩ := h.classHash
  obtain ⟨chains', hspace⟩ := h.namespaceHash
  constructor
  · refine ⟨chains, hclass.congr fun n hn => ?_⟩
    simp only [ILContext.classKey, hold n (h.classes_lt n hn)]
  · refine ⟨chains', hspace.congr fun n hn => ?_⟩
    simp only [ILContext.namespaceKey, hold n (h.namespaces_lt n hn)]
  · exact fun n hn => Nat.lt_succ_of_lt (h.classes_lt n hn)
  · exact fun n hn => Nat.lt_succ_of_lt (h.namespaces_lt n hn)

theorem spaceText_newClassName {image : Im} {persist : PersistString} {request : ClassRequest P}
    {info : ILClassName Nat P Im} (h : newClassName image persist request = some info) :
    info.nameSpace.map CString.chars = request.nameSpace.map CString.chars := by
  unfold newClassName at h
  cases hname : persist.run request.name with
  | none => simp [hname] at h
  | some name =>
    cases hspace : request.nameSpace with
    | none =>
      simp only [hname, hspace, Option.some.injEq] at h
      simp [← h]
    | some nameSpace =>
      cases hkept : persist.run nameSpace with
      | none => simp [hname, hspace, hkept] at h
      | some kept =>
        simp only [hname, hspace, hkept, Option.some.injEq] at h
        simp [← h, persist.chars_eq nameSpace kept hkept]

/-- The class table with the new record in it. -/
theorem ILContext.TablesInv.addClass {n : Nat} (h : context.TablesInv) (hn : n < context.allocated) :
    ({ context with classHash := ilHashAdd context.classKey context.classHash n } :
      ILContext P Im).TablesInv ∧
    (ilHashAdd context.classKey context.classHash n).contents = n ::ₘ context.classHash.contents := by
  obtain ⟨chains, hclass⟩ := h.classHash
  obtain ⟨chains', hadd, hcontents⟩ := hclass.add n
  refine ⟨⟨⟨chains', hadd⟩, h.namespaceHash, ?_, h.namespaces_lt⟩, hcontents⟩
  rw [hcontents]
  exact Multiset.forall_mem_cons.2 ⟨hn, h.classes_lt⟩

theorem ILContext.TablesInv.addNamespace {n : Nat} (h : context.TablesInv)
    (hn : n < context.allocated) :
    ({ context with namespaceHash := ilHashAdd context.namespaceKey context.namespaceHash n } :
      ILContext P Im).TablesInv ∧
    (ilHashAdd context.namespaceKey context.namespaceHash n).contents =
      n ::ₘ context.namespaceHash.contents := by
  obtain ⟨chains, hspace⟩ := h.namespaceHash
  obtain ⟨chains', hadd, hcontents⟩ := hspace.add n
  refine ⟨⟨h.classHash, ⟨chains', hadd⟩, h.classes_lt, ?_⟩, hcontents⟩
  rw [hcontents]
  exact Multiset.forall_mem_cons.2 ⟨hn, h.namespaces_lt⟩

/-- A class goes into the class table. -/
theorem ILContext.StandIns.addClass (h : context.StandIns) {context' : ILContext P Im}
    (htables : context'.TablesInv) {n : Nat}
    (hclasses : context'.classHash.contents = n ::ₘ context.classHash.contents)
    (hspaces : context'.namespaceHash.contents = context.namespaceHash.contents)
    (hold : ∀ m ∈ context.classHash.contents, context'.spaceText m = context.spaceText m) :
    context'.StandIns := by
  have hold' : ∀ r ∈ context.namespaceHash.contents, context'.spaceText r = context.spaceText r :=
    fun r hr => hold r (h.isClass r hr)
  refine ⟨htables, ?_, ?_, ?_⟩ <;> rw [hspaces]
  · intro r hr
    rw [hclasses]
    exact Multiset.mem_cons_of_mem (h.isClass r hr)
  · intro r hr
    rw [hold' r hr]
    exact h.hasSpace r hr
  · intro r hr r' hr' hsame
    rw [hold' r hr, hold' r' hr'] at hsame
    exact h.unique r hr r' hr' hsame

/-- The new class is stood for already, or has no namespace. -/
theorem ILContext.StandIns.complete (h : context.StandIns) {n : Nat}
    (hold : ∀ m ∈ context.classHash.contents, m ≠ n → context.StoodFor m)
    (hnew : context.StoodFor n) : context.NamespaceInv := by
  refine ⟨h, fun m hm => ?_⟩
  by_cases heq : m = n
  · exact heq ▸ hnew
  · exact hold m hm heq

/-- The new class comes to stand for its namespace. -/
theorem ILContext.StandIns.addNamespace (h : context.StandIns) {n : Nat}
    (hn : n ∈ context.classHash.contents) (hspace : context.spaceText n ≠ none)
    (hold : ∀ m ∈ context.classHash.contents, m ≠ n → context.StoodFor m)
    (hfree : ∀ r ∈ context.namespaceHash.contents, context.spaceText r ≠ context.spaceText n) :
    ({ context with namespaceHash := ilHashAdd context.namespaceKey context.namespaceHash n } :
      ILContext P Im).NamespaceInv := by
  obtain ⟨htables, hcontents⟩ := h.toTablesInv.addNamespace (h.classes_lt n hn)
  have hstands : ({ context with
      namespaceHash := ilHashAdd context.namespaceKey context.namespaceHash n } :
      ILContext P Im).StandIns := by
    refine ⟨htables, ?_, ?_, ?_⟩ <;> rw [hcontents]
    · exact Multiset.forall_mem_cons.2 ⟨hn, h.isClass⟩
    · exact Multiset.forall_mem_cons.2 ⟨hspace, h.hasSpace⟩
    · intro r hr r' hr' hsame
      rw [Multiset.mem_cons] at hr hr'
      rcases hr with rfl | hr <;> rcases hr' with rfl | hr'
      · rfl
      · exact absurd hsame.symm (hfree r' hr')
      · exact absurd hsame (hfree r hr)
      · exact h.unique r hr r' hr' hsame
  apply hstands.complete (n := n)
  · intro m hm hne hspace'
    obtain ⟨r, hr, hsame⟩ := hold m hm hne hspace'
    exact ⟨r, hcontents ▸ Multiset.mem_cons_of_mem hr, hsame⟩
  · exact fun _ => ⟨n, hcontents ▸ Multiset.mem_cons_self n _, rfl⟩

/-- Memory is taken for a record that goes nowhere. -/
theorem ILContext.NamespaceInv.allocated (h : context.NamespaceInv) :
    ({ context with allocated := context.allocated + 1 } : ILContext P Im).NamespaceInv where
  classHash := h.classHash
  namespaceHash := h.namespaceHash
  classes_lt n hn := Nat.lt_succ_of_lt (h.classes_lt n hn)
  namespaces_lt n hn := Nat.lt_succ_of_lt (h.namespaces_lt n hn)
  isClass := h.isClass
  hasSpace := h.hasSpace
  unique := h.unique
  stoodFor := h.stoodFor

theorem ilClassNameCreate_spec (h : context.NamespaceInv) (image : Im) (persist : PersistString)
    (request : ClassRequest P) :
    ∃ result, ilClassNameCreate context image persist request = some result ∧
      result.1.NamespaceInv := by
  unfold ilClassNameCreate
  cases hinfo : newClassName image persist request with
  | none => exact ⟨_, rfl, h.allocated⟩
  | some info =>
    have htext := spaceText_newClassName hinfo
    let alloc : ILContext P Im :=
      { context with
        info := Function.update context.info context.allocated info
        allocated := context.allocated + 1 }
    let added : ILContext P Im :=
      { alloc with classHash := ilHashAdd alloc.classKey alloc.classHash context.allocated }
    have hlt := h.classes_lt
    have hsame : ∀ m ∈ context.classHash.contents, added.spaceText m = context.spaceText m := by
      intro m hm
      simp only [added, alloc, ILContext.spaceText, Function.update_of_ne (hlt m hm).ne]
    have hnew : added.spaceText context.allocated = request.nameSpace.map CString.chars := by
      simp only [added, alloc, ILContext.spaceText, Function.update_self, htext]
    obtain ⟨htables, hclasses⟩ := (h.toTablesInv.alloc info).addClass (Nat.lt_succ_self _)
    have hstands : added.StandIns := h.toStandIns.addClass htables hclasses rfl hsame
    have hold : ∀ m ∈ added.classHash.contents, m ≠ context.allocated → added.StoodFor m := by
      intro m hm hne hspace
      have hm := (Multiset.mem_cons.1 (hclasses ▸ hm)).resolve_left hne
      rw [hsame m hm] at hspace ⊢
      obtain ⟨r, hr, htext⟩ := h.stoodFor m hm hspace
      exact ⟨r, hr, (hsame r (h.isClass r hr)).trans htext⟩
    cases hspace : request.nameSpace with
    | none =>
      refine ⟨_, rfl, hstands.complete hold ?_⟩
      intro hsome
      rw [hnew, hspace] at hsome
      exact absurd rfl hsome
    | some nameSpace =>
      rw [hspace, Option.map_some] at hnew
      obtain ⟨found, hfind, hiff⟩ := findNamespace_spec hstands.toTablesInv nameSpace
      have hfind' : added.findNamespace (some nameSpace) = some found := hfind
      simp only [added, alloc] at hfind'
      simp only [hfind']
      cases found with
      | none =>
        refine ⟨_, rfl, hstands.addNamespace ?_ (by simp [hnew]) hold ?_⟩
        · exact hclasses ▸ Multiset.mem_cons_self _ _
        · intro r hr heq
          exact hiff.2 ⟨r, hr, heq.trans hnew⟩ rfl
      | some r =>
        refine ⟨_, rfl, hstands.complete hold fun _ => ?_⟩
        rw [hnew]
        exact hiff.1 (by simp)

/-- The scope of a record does not count. -/
theorem ILContext.NamespaceInv.setInfo (h : context.NamespaceInv) {n : Nat}
    {info : ILClassName Nat P Im} (hname : info.name = (context.info n).name)
    (hspace : info.nameSpace = (context.info n).nameSpace) :
    ({ context with info := Function.update context.info n info } : ILContext P Im).NamespaceInv := by
  let context' : ILContext P Im := { context with info := Function.update context.info n info }
  have hnames : ∀ m, (context'.info m).name = (context.info m).name := by
    intro m
    by_cases hm : m = n
    · simp [context', hm, hname]
    · simp [context', hm]
  have hspaces : ∀ m, (context'.info m).nameSpace = (context.info m).nameSpace := by
    intro m
    by_cases hm : m = n
    · simp [context', hm, hspace]
    · simp [context', hm]
  have hclassKey : context'.classKey = context.classKey := by
    funext m
    simp only [ILContext.classKey, classHashCompute, hnames, hspaces]
  have hnamespaceKey : context'.namespaceKey = context.namespaceKey := by
    funext m
    simp only [ILContext.namespaceKey, namespaceHashCompute, hspaces]
  have htext : context'.spaceText = context.spaceText := by
    funext m
    simp only [ILContext.spaceText, hspaces]
  have hstoodFor : context'.StoodFor = context.StoodFor := by
    funext m
    simp only [ILContext.StoodFor, htext, context']
  constructor
  · constructor
    · exact ⟨hclassKey ▸ h.classHash, hnamespaceKey ▸ h.namespaceHash, h.classes_lt, h.namespaces_lt⟩
    · exact h.isClass
    · exact htext ▸ h.hasSpace
    · exact htext ▸ h.unique
  · exact hstoodFor ▸ h.stoodFor

variable [DecidableEq P] [DecidableEq Im]

theorem ilClassNameLookup_spec (h : context.NamespaceInv) (items : ProgramItems P Im)
    (request : ClassRequest P) :
    ∃ result, ilClassNameLookup context items request = some result ∧ result.1.NamespaceInv := by
  obtain ⟨chains, hclass⟩ := h.classHash
  unfold ilClassNameLookup classHashFind
  rw [ilHashFindAlt_eq hclass]
  cases List.find? _ _ with
  | none => exact ⟨_, rfl, h⟩
  | some className =>
    cases request.scopeItem with
    | none => exact ⟨_, rfl, h⟩
    | some scopeItem =>
      dsimp only
      split_ifs
      · exact ⟨_, rfl, h.setInfo rfl rfl⟩
      · exact ⟨_, rfl, h⟩

theorem createClass_spec (h : context.NamespaceInv) (items : ProgramItems P Im) (image : Im)
    (persist : PersistString) (request : ClassRequest P) :
    ∃ result, createClass context items image persist request = some result ∧
      result.1.NamespaceInv := by
  obtain ⟨⟨context', found⟩, hlookup, h'⟩ := ilClassNameLookup_spec h items request
  unfold createClass
  rw [hlookup]
  cases found with
  | some className => exact ⟨_, rfl, h'⟩
  | none => exact ilClassNameCreate_spec h' image persist request

end Create

/-! ### Destroying images -/

section Destroy

variable {context : ILContext P Im} [DecidableEq Im]

/-- The records of the image are gone from both tables. -/
theorem ilClassRemoveAllFromHash_spec (h : context.TablesInv) (image : Im) :
    ∃ context', ilClassRemoveAllFromHash context image = some context' ∧
      context'.TablesInv ∧ context'.info = context.info ∧
      (∀ n, n ∈ context'.classHash.contents ↔
        n ∈ context.classHash.contents ∧ (context.info n).image ≠ image) ∧
      (∀ n, n ∈ context'.namespaceHash.contents ↔
        n ∈ context.namespaceHash.contents ∧ (context.info n).image ≠ image) := by
  obtain ⟨chains, hclass⟩ := h.classHash
  obtain ⟨chains', hspace⟩ := h.namespaceHash
  let matchFunc (n : Nat) (key : Im) : Bool := (context.info n).image = key
  obtain ⟨classHash, hrun, hinv, hcontents⟩ := hclass.removeSubset matchFunc image
  obtain ⟨namespaceHash, hrun', hinv', hcontents'⟩ := hspace.removeSubset matchFunc image
  have hclasses : ∀ n, n ∈ classHash.contents ↔
      n ∈ context.classHash.contents ∧ (context.info n).image ≠ image := by
    intro n
    simp [hcontents, matchFunc]
  have hspaces : ∀ n, n ∈ namespaceHash.contents ↔
      n ∈ context.namespaceHash.contents ∧ (context.info n).image ≠ image := by
    intro n
    simp [hcontents', matchFunc]
  refine ⟨{ context with classHash := classHash, namespaceHash := namespaceHash }, ?_, ?_, rfl,
    hclasses, hspaces⟩
  · unfold ilClassRemoveAllFromHash
    simp only [matchFunc] at hrun hrun'
    simp only [hrun, hrun']
  · exact ⟨⟨chains, hinv⟩, ⟨chains', hinv'⟩, fun n hn => h.classes_lt n ((hclasses n).1 hn).1,
      fun n hn => h.namespaces_lt n ((hspaces n).1 hn).1⟩

/-- An image may go exactly when it takes no namespace with it that another image uses. -/
theorem destroy_spec (h : context.NamespaceInv) (image : Im) :
    ∃ context', ilClassRemoveAllFromHash context image = some context' ∧
      (context.SparesOthers image → context'.NamespaceInv) ∧
      (¬ context.SparesOthers image → ¬ context'.NamespacesValid) := by
  obtain ⟨context', hrun, htables, hinfo, hclasses, hspaces⟩ :=
    ilClassRemoveAllFromHash_spec h.toTablesInv image
  have htext : context'.spaceText = context.spaceText := by
    funext n
    simp only [ILContext.spaceText, hinfo]
  refine ⟨context', hrun, fun hspares => ?_, fun hspares hvalid => ?_⟩
  · constructor
    · refine ⟨htables, fun r hr => ?_, fun r hr => ?_, fun r hr r' hr' hsame => ?_⟩
      · have hr := (hspaces r).1 hr
        exact (hclasses r).2 ⟨h.isClass r hr.1, hr.2⟩
      · rw [htext]
        exact h.hasSpace r ((hspaces r).1 hr).1
      · rw [htext] at hsame
        exact h.unique r ((hspaces r).1 hr).1 r' ((hspaces r').1 hr').1 hsame
    · intro n hn hspace
      have hn := (hclasses n).1 hn
      rw [htext] at hspace ⊢
      obtain ⟨r, hr, hsame⟩ := h.stoodFor n hn.1 hspace
      refine ⟨r, (hspaces r).2 ⟨hr, fun himage => ?_⟩, hsame⟩
      exact hspares n hn.1 hn.2 r hr himage hsame
  · rw [ILContext.SparesOthers] at hspares
    push Not at hspares
    obtain ⟨n, hn, hother, r, hr, himage, hsame⟩ := hspares
    obtain ⟨text, hnamed⟩ := Option.ne_none_iff_exists'.1 (h.hasSpace r hr)
    obtain ⟨nspace, hchars⟩ := exists_cstring hnamed
    -- the class is still there, and the only record that stood for its namespace is not
    have hhas : context'.HasNamespace nspace.chars :=
      ⟨n, (hclasses n).2 ⟨hn, hother⟩, by rw [htext, ← hsame, hnamed, hchars]⟩
    obtain ⟨r', hr', hnamed'⟩ := ((namespacesValid_iff htables).1 hvalid nspace).2 hhas
    have hr' := (hspaces r').1 hr'
    rw [htext, hchars, ← hnamed] at hnamed'
    exact hr'.2 (h.unique r' hr'.1 r hr hnamed' ▸ himage)

end Destroy

/-! ### Runs -/

section Runs

variable [DecidableEq P] [DecidableEq Im]

/-- A destruction keeps the namespaces of the other images. -/
def ContextOp.Spares (context : ILContext P Im) : ContextOp P Im → Prop
  | .create .. => True
  | .destroy image => context.SparesOthers image

theorem ContextOp.run_spec {context : ILContext P Im} (h : context.NamespaceInv)
    (op : ContextOp P Im) :
    ∃ context', op.run context = some context' ∧ (op.Spares context → context'.NamespaceInv) ∧
      (¬ op.Spares context → ¬ context'.NamespacesValid) := by
  cases op with
  | create items image persist request =>
    obtain ⟨result, hcreate, h'⟩ := createClass_spec h items image persist request
    refine ⟨result.1, ?_, fun _ => h', fun hnot => absurd trivial hnot⟩
    simp [ContextOp.run, hcreate]
  | destroy image => exact destroy_spec h image

theorem ContextOp.runAll_concat (context : ILContext P Im) (ops : List (ContextOp P Im))
    (op : ContextOp P Im) :
    runAll context (ops ++ [op]) = (runAll context ops).bind op.run := by
  induction ops generalizing context with
  | nil => simp [runAll]
  | cons first ops ih => simp [runAll, Option.bind_assoc, ih]

omit [DecidableEq P] [DecidableEq Im] in
theorem namespaceInv_create (memory : Nat → ILClassName Nat P Im) :
    (ilContextCreate memory).NamespaceInv := by
  have hclasses : (ilContextCreate memory).classHash.contents = 0 :=
    ILHashTable.contents_create ilContextHashSize
  have hspaces : (ilContextCreate memory).namespaceHash.contents = 0 :=
    ILHashTable.contents_create ilContextNsHashSize
  constructor
  · constructor
    · exact ⟨⟨_, ILHashTable.inv_create ilContextHashSize⟩,
        ⟨_, ILHashTable.inv_create ilContextNsHashSize⟩, by simp [hclasses], by simp [hspaces]⟩
    · simp [hspaces]
    · simp [hspaces]
    · simp [hspaces]
  · simp [hclasses]

/-- The state that some classes made and images destroyed lead to satisfies a condition. -/
def Leads (memory : Nat → ILClassName Nat P Im) (ops : List (ContextOp P Im))
    (cond : ILContext P Im → Prop) : Prop :=
  ∃ context, ContextOp.runAll (ilContextCreate memory) ops = some context ∧ cond context

variable (memory : Nat → ILClassName Nat P Im)

theorem leads_inv {ops : List (ContextOp P Im)}
    (h : ∀ pre image, pre ++ [.destroy image] <+: ops →
      Leads memory pre fun context => context.SparesOthers image) :
    Leads memory ops ILContext.NamespaceInv := by
  induction ops using List.reverseRecOn with
  | nil => exact ⟨_, rfl, namespaceInv_create memory⟩
  | append_singleton ops op ih =>
    obtain ⟨context, hrun, hinv⟩ := ih fun pre image hpre =>
      h pre image (hpre.trans (List.prefix_append _ _))
    obtain ⟨next, hop, hnext, _⟩ := op.run_spec hinv
    have hspares : op.Spares context := by
      cases op with
      | create => trivial
      | destroy image =>
        obtain ⟨context', hrun', hspares⟩ := h ops image (List.prefix_refl _)
        obtain rfl := Option.some.inj (hrun.symm.trans hrun')
        exact hspares
    refine ⟨next, ?_, hnext hspares⟩
    rw [ContextOp.runAll_concat, hrun]
    exact hop

theorem leads_valid {ops : List (ContextOp P Im)}
    (h : ∀ pre, pre <+: ops → Leads memory pre ILContext.NamespacesValid) :
    Leads memory ops ILContext.NamespaceInv ∧
      ∀ pre op, pre ++ [op] <+: ops → Leads memory pre op.Spares := by
  induction ops using List.reverseRecOn with
  | nil =>
    refine ⟨⟨_, rfl, namespaceInv_create memory⟩, fun pre op hpre => ?_⟩
    simp at hpre
  | append_singleton ops op ih =>
    obtain ⟨⟨context, hrun, hinv⟩, hspares⟩ := ih fun pre hpre => h pre (hpre.trans (List.prefix_append _ _))
    obtain ⟨next, hop, hmeets, hnot⟩ := op.run_spec hinv
    have hrun' : ContextOp.runAll (ilContextCreate memory) (ops ++ [op]) = some next := by
      rw [ContextOp.runAll_concat, hrun]
      exact hop
    obtain ⟨next', hrun'', hvalid⟩ := h (ops ++ [op]) (List.prefix_refl _)
    obtain rfl := Option.some.inj (hrun'.symm.trans hrun'')
    have hop_spares : op.Spares context := by
      by_contra hcon
      exact hnot hcon hvalid
    refine ⟨⟨next, hrun', hmeets hop_spares⟩, fun pre op' hpre => ?_⟩
    rw [List.prefix_concat_iff] at hpre
    cases hpre with
    | inl heq =>
      obtain ⟨rfl, hsame⟩ := List.append_inj' heq rfl
      obtain rfl := List.singleton_injective hsame
      exact ⟨context, hrun, hop_spares⟩
    | inr hpre => exact hspares pre op' hpre

/-- One module in each of two images. -/
def sampleItems : ProgramItems Nat Nat := ⟨fun _ => 0, id⟩

def sampleRequest (scope : Nat) : ClassRequest Nat :=
  ⟨some scope, none, .inl (by simp), .ofList [0x58] (by decide), some (.ofList [0x4E] (by decide))⟩

/-- The images 0 and 1 make a class `N.X` each, and the image 0 is destroyed. -/
def sampleOps : List (ContextOp Nat Nat) :=
  [.create sampleItems 0 ⟨some, by simp⟩ (sampleRequest 0),
    .create sampleItems 1 ⟨some, by simp⟩ (sampleRequest 1), .destroy 0]

def sampleMemory (_ : Nat) : ILClassName Nat Nat Nat :=
  ⟨0, .ofList [] (by simp), none, none, some 0, .inr (by simp)⟩

end Runs

end Pnet.Image.ClassHash
