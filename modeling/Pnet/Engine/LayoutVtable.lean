import Pnet.Engine.LayoutSound

/-! The vtables of a hierarchy: which methods share a slot, and which method a slot
holds. -/
namespace Pnet.Engine
open Pnet.Lib Pnet.Image

section
variable (md : Metadata)

/-- `m'` is the first virtual method of the same name and signature as `m` on the way
up from `info`. -/
inductive FirstMatch (m : MemberId) : ClassId → MemberId → Prop
  | here {info : ClassId} {m' : MemberId} :
      (virtualMethods md info).find? (sameNameAndSignature md · m) = some m' →
      FirstMatch m info m'
  | above {info parent : ClassId} {m' : MemberId} :
      (virtualMethods md info).find? (sameNameAndSignature md · m) = none →
      md.parent info = some parent → FirstMatch m parent m' → FirstMatch m info m'

/-- `m` is no new slot, and may access the method that it hides. -/
def Overrides (m m' : MemberId) : Prop :=
  (md.method m).newSlot = false ∧
    ∃ parent, md.parent m.owner = some parent ∧ FirstMatch md m parent m' ∧
      md.ilMemberAccessible m' m.owner = some true

/-- `m` is declared below `m'`, or in the same class and not before it. -/
def AsDerived (m m' : MemberId) : Prop :=
  Inherits md m.owner m'.owner ∧ (m.owner = m'.owner → m'.posn ≤ m.posn)

/-- The virtual methods of a class and of the classes above it. -/
def hierarchyMethods (info : ClassId) : Set MemberId :=
  {m | Inherits md info m.owner ∧ m ∈ virtualMethods md m.owner}

structure VtableSound (methods : Set MemberId) (vtable : List (Option MemberId))
    (index : MemberId → Nat) : Prop where
  overrides : ∀ m ∈ methods, ∀ m', Overrides md m m' → index m = index m'
  distinct : ∀ m ∈ methods, ∀ m' ∈ methods, (∀ a, ¬ Overrides md m a) →
    (∀ a, ¬ Overrides md m' a) → index m = index m' → m = m'
  lt : ∀ m ∈ methods, index m < vtable.length
  holds : ∀ slot < vtable.length, ∃ m ∈ methods, vtable[slot]? = some (some m) ∧
    index m = slot ∧ ∀ m' ∈ methods, index m' = slot → AsDerived md m m'

end

variable {md : Metadata} {info : ClassId} {m m' : MemberId}

/-! ### The search for an ancestor -/

theorem find?_virtualMethods (info : ClassId) (m : MemberId) :
    (virtualMethods md info).find? (sameNameAndSignature md · m) =
      (md.methods info).find? fun method =>
        (md.method method).isVirtual && sameNameAndSignature md method m := by
  unfold virtualMethods
  rw [List.find?_filter]
  congr 1
  funext method
  rw [Bool.decide_and, Bool.decide_eq_true, Bool.decide_eq_true]

theorem findVirtualAncestor_iff {scope : ClassId} {fuel : Nat} {start : Option ClassId}
    {result : Option MemberId}
    (h : findVirtualAncestor md scope m fuel start = some result) :
    result = some m' ↔ ∃ first, start = some first ∧ FirstMatch md m first m' ∧
      md.ilMemberAccessible m' scope = some true := by
  induction fuel generalizing start with
  | zero =>
    cases start with
    | none =>
      cases h
      simp
    | some info => cases h
  | succ fuel ih =>
    cases start with
    | none =>
      cases h
      simp
    | some info =>
      unfold findVirtualAncestor at h
      rw [← find?_virtualMethods] at h
      cases hfind : (virtualMethods md info).find? (sameNameAndSignature md · m) with
      | some method =>
        rw [hfind] at h
        obtain ⟨accessible, haccessible, hresult⟩ := Option.map_eq_some_iff.1 h
        rw [← hresult]
        constructor
        · intro heq
          split at heq
          · rename_i htrue
            cases heq
            exact ⟨info, rfl, .here hfind, htrue ▸ haccessible⟩
          · cases heq
        · rintro ⟨first, hfirst, hmatch, htrue⟩
          cases hfirst
          cases hmatch with
          | here hhere =>
            cases hfind.symm.trans hhere
            cases haccessible.symm.trans htrue
            rfl
          | above hnone => cases hfind.symm.trans hnone
      | none =>
        rw [hfind] at h
        rw [ih h]
        constructor
        · rintro ⟨parent, hparent, hmatch, htrue⟩
          exact ⟨info, rfl, .above hfind hparent hmatch, htrue⟩
        · rintro ⟨first, hfirst, hmatch, htrue⟩
          cases hfirst
          cases hmatch with
          | here hhere => cases hfind.symm.trans hhere
          | above _ hparent hmatch => exact ⟨_, hparent, hmatch, htrue⟩

theorem virtualAncestor_iff {result : Option MemberId}
    (h : virtualAncestor md m.owner m = some result) (hslot : (md.method m).newSlot = false) :
    result = some m' ↔ Overrides md m m' := by
  rw [findVirtualAncestor_iff h]
  exact ⟨fun hfirst => ⟨hslot, hfirst⟩, fun hoverrides => hoverrides.2⟩

/-! ### One class -/

theorem slotFor_cases {inherited : MemberId → Nat} {start slot next : Nat}
    (h : slotFor md m.owner inherited m start = some (slot, next)) :
    (∃ ancestor, Overrides md m ancestor ∧ virtualAncestor md m.owner m = some (some ancestor) ∧
        slot = inherited ancestor ∧ next = start) ∨
      ((∀ a, ¬ Overrides md m a) ∧ slot = start ∧ next = start + 1) := by
  unfold slotFor at h
  split at h
  · rename_i hnew
    cases h
    refine .inr ⟨fun a hoverrides => ?_, rfl, rfl⟩
    cases hnew.symm.trans hoverrides.1
  · rename_i hnew
    have hslot := Bool.eq_false_of_not_eq_true hnew
    split at h
    · rename_i ancestor hancestor
      cases h
      exact .inl ⟨ancestor, (virtualAncestor_iff hancestor hslot).1 rfl, hancestor, rfl, rfl⟩
    · rename_i hancestor
      cases h
      refine .inr ⟨fun a hoverrides => ?_, rfl, rfl⟩
      cases (virtualAncestor_iff hancestor hslot).2 hoverrides
    · cases h

variable (md) in
/-- What the slots of a class's own methods are, from the parent's and from the number
of the first free slot. -/
structure Assigned (inherited : MemberId → Nat) (methods : List MemberId) (start : Nat)
    (result : Nat × (MemberId → Nat)) : Prop where
  cases : ∀ m ∈ methods,
    (∃ ancestor, Overrides md m ancestor ∧ virtualAncestor md m.owner m = some (some ancestor) ∧
        result.2 m = inherited ancestor) ∨
      ((∀ a, ¬ Overrides md m a) ∧ start ≤ result.2 m ∧ result.2 m < result.1)
  distinct : ∀ m ∈ methods, ∀ m' ∈ methods, (∀ a, ¬ Overrides md m a) →
    (∀ a, ¬ Overrides md m' a) → result.2 m = result.2 m' → m = m'
  onto : ∀ slot, start ≤ slot → slot < result.1 → ∃ m ∈ methods, result.2 m = slot

theorem assigned_cons {inherited : MemberId → Nat} {methods : List MemberId}
    {start next : Nat} {result : Nat × (MemberId → Nat)}
    (hslot : slotFor md m.owner inherited m start = some (result.2 m, next))
    (h : Assigned md inherited methods next result) (hle : next ≤ result.1) :
    Assigned md inherited (m :: methods) start result := by
  cases slotFor_cases hslot with
  | inl hold =>
    obtain ⟨ancestor, hoverrides, hancestor, hindex, hnext⟩ := hold
    subst hnext
    constructor
    · intro m' hm'
      cases List.mem_cons.1 hm' with
      | inl heq =>
        subst heq
        exact .inl ⟨ancestor, hoverrides, hancestor, hindex⟩
      | inr hm' => exact h.cases m' hm'
    · intro m₁ h₁ m₂ h₂ hn₁ hn₂ hindex
      cases List.mem_cons.1 h₁ with
      | inl heq => exact absurd (heq ▸ hoverrides) (hn₁ ancestor)
      | inr h₁ =>
        cases List.mem_cons.1 h₂ with
        | inl heq => exact absurd (heq ▸ hoverrides) (hn₂ ancestor)
        | inr h₂ => exact h.distinct m₁ h₁ m₂ h₂ hn₁ hn₂ hindex
    · intro slot hge hlt
      obtain ⟨m', hm', hslot'⟩ := h.onto slot hge hlt
      exact ⟨m', List.mem_cons_of_mem _ hm', hslot'⟩
  | inr hnew =>
    obtain ⟨hnone, hindex, hnext⟩ := hnew
    subst hnext
    have hlater : ∀ m' ∈ methods, (∀ a, ¬ Overrides md m' a) → result.2 m < result.2 m' := by
      intro m' hm' hn
      cases h.cases m' hm' with
      | inl hold =>
        obtain ⟨ancestor, hoverrides, _⟩ := hold
        exact absurd hoverrides (hn ancestor)
      | inr hnew =>
        rw [hindex]
        exact hnew.2.1
    constructor
    · intro m' hm'
      cases List.mem_cons.1 hm' with
      | inl heq =>
        subst heq
        exact .inr ⟨hnone, Nat.le_of_eq hindex.symm, by omega⟩
      | inr hm' =>
        cases h.cases m' hm' with
        | inl hold => exact .inl hold
        | inr hnew => exact .inr ⟨hnew.1, Nat.le_of_succ_le hnew.2.1, hnew.2.2⟩
    · intro m₁ h₁ m₂ h₂ hn₁ hn₂ heq
      cases List.mem_cons.1 h₁ with
      | inl h₁ =>
        cases List.mem_cons.1 h₂ with
        | inl h₂ => exact h₁.trans h₂.symm
        | inr h₂ => exact absurd (h₁ ▸ heq) (Nat.ne_of_lt (hlater m₂ h₂ hn₂))
      | inr h₁ =>
        cases List.mem_cons.1 h₂ with
        | inl h₂ => exact absurd (h₂ ▸ heq).symm (Nat.ne_of_lt (hlater m₁ h₁ hn₁))
        | inr h₂ => exact h.distinct m₁ h₁ m₂ h₂ hn₁ hn₂ heq
    · intro slot hge hlt
      by_cases hfirst : slot = start
      · exact ⟨m, List.mem_cons_self .., hindex.trans hfirst.symm⟩
      · obtain ⟨m', hm', hslot'⟩ := h.onto slot (by omega) hlt
        exact ⟨m', List.mem_cons_of_mem _ hm', hslot'⟩

theorem assignSlots_assigned {inherited : MemberId → Nat} {methods : List MemberId}
    {slots result : Nat × (MemberId → Nat)} (hnodup : methods.Nodup)
    (howner : ∀ m ∈ methods, m.owner = info)
    (h : assignSlots md info inherited methods slots = some result) :
    Assigned md inherited methods slots.1 result := by
  induction methods generalizing slots with
  | nil =>
    cases h
    exact ⟨nofun, nofun, fun slot hge hlt => absurd hlt (Nat.not_lt.2 hge)⟩
  | cons m methods ih =>
    obtain ⟨slot, next, hslot, hrest⟩ := assignSlots_cons h
    obtain ⟨hnotMem, hnodup⟩ := List.nodup_cons.1 hnodup
    have hindex : result.2 m = slot :=
      (assignSlots_frame hrest hnotMem).trans (Function.update_self ..)
    rw [← hindex, ← howner m (List.mem_cons_self ..)] at hslot
    exact assigned_cons hslot (ih hnodup (fun m' hm' => howner m' (List.mem_cons_of_mem _ hm')) hrest)
      (assignSlots_le hrest)

variable (md) in
/-- A slot holds the last method of the class that has it, or what it held before. -/
theorem overrideSlots_getElem? (index : MemberId → Nat) (methods : List MemberId)
    {vtable : List (Option MemberId)} {slot : Nat} (hslot : slot < vtable.length) :
    (∃ pre m post, methods = pre ++ m :: post ∧ (md.method m).isVirtual = true ∧
        index m = slot ∧
        (∀ m' ∈ post, (md.method m').isVirtual = true → index m' ≠ slot) ∧
        (overrideSlots md index methods vtable)[slot]? = some (some m)) ∨
      ((∀ m ∈ methods, (md.method m).isVirtual = true → index m ≠ slot) ∧
        (overrideSlots md index methods vtable)[slot]? = vtable[slot]?) := by
  induction methods generalizing vtable with
  | nil => exact .inr ⟨nofun, rfl⟩
  | cons m methods ih =>
    unfold overrideSlots
    split
    · rename_i hvirtual
      have hlength : slot < (vtable.set (index m) (some m)).length := by
        rw [List.length_set]
        exact hslot
      cases ih hlength with
      | inl hfound =>
        obtain ⟨pre, m', post, hsplit, hm'⟩ := hfound
        exact .inl ⟨m :: pre, m', post, congrArg (m :: ·) hsplit, hm'⟩
      | inr hnone =>
        rw [hnone.2]
        by_cases hindex : index m = slot
        · refine .inl ⟨[], m, methods, rfl, hvirtual, hindex, hnone.1, ?_⟩
          rw [hindex, List.getElem?_set_self hslot]
        · refine .inr ⟨fun m' hm' hvirtual' => ?_, List.getElem?_set_ne hindex⟩
          cases List.mem_cons.1 hm' with
          | inl heq =>
            rw [heq]
            exact hindex
          | inr hm' => exact hnone.1 m' hm' hvirtual'
    · rename_i hvirtual
      cases ih hslot with
      | inl hfound =>
        obtain ⟨pre, m', post, hsplit, hm'⟩ := hfound
        exact .inl ⟨m :: pre, m', post, congrArg (m :: ·) hsplit, hm'⟩
      | inr hnone =>
        refine .inr ⟨fun m' hm' hvirtual' => ?_, hnone.2⟩
        cases List.mem_cons.1 hm' with
        | inl heq =>
          rw [heq] at hvirtual'
          exact absurd hvirtual' hvirtual
        | inr hm' => exact hnone.1 m' hm' hvirtual'

theorem copyVtable_getElem? {parent : List (Option MemberId)} {size slot : Nat}
    (h : slot < parent.length) : (copyVtable parent parent.length size)[slot]? = parent[slot]? := by
  unfold copyVtable
  rw [List.take_length, List.getElem?_append_left h]

variable (md) in
theorem methods_pairwise (info : ClassId) :
    (md.methods info).Pairwise (·.posn < ·.posn) := by
  unfold Metadata.methods
  rw [List.pairwise_map]
  exact List.pairwise_lt_range

theorem mem_virtualMethods (hm : m ∈ md.methods info) (hvirtual : (md.method m).isVirtual = true) :
    m ∈ virtualMethods md info :=
  List.mem_filter.2 ⟨hm, hvirtual⟩

/-! ### The hierarchy -/

theorem VtableSound.empty : VtableSound md ∅ [] (fun _ => 0) :=
  ⟨nofun, nofun, nofun, nofun⟩

theorem hierarchyMethods_eq {parent : Option ClassId} (hparent : md.parent info = parent) :
    hierarchyMethods md info =
      {m | ∃ p, parent = some p ∧ m ∈ hierarchyMethods md p} ∪ {m | m ∈ virtualMethods md info} := by
  ext m
  constructor
  · rintro ⟨hinherits, hm⟩
    cases hinherits.cases with
    | inl howner => exact .inr (howner ▸ hm)
    | inr habove =>
      obtain ⟨p, hp, hinherits⟩ := habove
      exact .inl ⟨p, hparent.symm.trans hp, hinherits, hm⟩
  · intro hm
    cases hm with
    | inl habove =>
      obtain ⟨p, hp, hinherits, hm⟩ := habove
      exact ⟨hinherits.of_parent (hparent.trans hp), hm⟩
    | inr hown =>
      have howner := owner_of_mem_virtualMethods hown
      refine ⟨?_, ?_⟩
      · rw [howner]
        exact .refl
      · rw [howner]
        exact hown

theorem FirstMatch.mem (h : FirstMatch md m info m') : m' ∈ hierarchyMethods md info := by
  induction h with
  | here hfind =>
    have hmem := List.mem_of_find?_eq_some hfind
    have howner := owner_of_mem_virtualMethods hmem
    rw [hierarchyMethods_eq rfl]
    exact .inr hmem
  | above _ hparent _ ih => exact ⟨ih.1.of_parent hparent, ih.2⟩

theorem Overrides.mem {parent : ClassId} (h : Overrides md m m')
    (hparent : md.parent m.owner = some parent) : m' ∈ hierarchyMethods md parent := by
  obtain ⟨_, p, hp, hmatch, _⟩ := h
  cases hp.symm.trans hparent
  exact hmatch.mem

/-- A class is not above itself, or its slots would never be known. -/
theorem ClassHasSlots.acyclic {slots : SlotTable} (h : ClassHasSlots md info slots)
    {parent : ClassId} (hparent : md.parent info = some parent) : ¬ Inherits md parent info := by
  have hstep : ∀ fuel child, (classSlots md (fuel + 1) child).isSome →
      ∀ p, md.parent child = some p → (classSlots md fuel p).isSome := by
    intro fuel child hsome p hp
    unfold classSlots classSlotsStep parentSlots at hsome
    simp only [hp] at hsome
    cases hslots : classSlots md fuel p with
    | none =>
      rw [hslots] at hsome
      cases hsome
    | some slots => rfl
  have hup : ∀ fuel child ancestor, (classSlots md fuel child).isSome →
      Inherits md child ancestor → (classSlots md fuel ancestor).isSome := by
    intro fuel child ancestor hsome hinherits
    induction hinherits with
    | refl => exact hsome
    | @tail b c _ hbc ih =>
      cases fuel with
      | zero => cases ih
      | succ fuel =>
        obtain ⟨slots, hslots⟩ := Option.isSome_iff_exists.1 (hstep fuel b ih c hbc)
        exact Option.isSome_iff_exists.2 ⟨slots, classSlots_fueled fuel c slots hslots⟩
  intro hinherits
  have hnever : ∀ fuel, ¬ (classSlots md fuel info).isSome := by
    intro fuel
    induction fuel with
    | zero => exact Bool.false_ne_true
    | succ fuel ih =>
      exact fun hsome => ih (hup fuel parent info (hstep fuel info hsome parent hparent) hinherits)
  obtain ⟨fuel, hfuel⟩ := h
  exact hnever fuel (Option.isSome_iff_exists.2 ⟨slots, hfuel⟩)

/-- The slots of a class, from those of the methods above it. -/
theorem VtableSound.extend {above : Set MemberId} {parent slots : SlotTable}
    (hparent : VtableSound md above parent.vtable parent.index)
    (h : extendSlots md info parent = some slots)
    (habove : ∀ m ∈ above, Inherits md info m.owner ∧ m.owner ≠ info)
    (hclosed : ∀ m m', m ∈ above ∨ m ∈ virtualMethods md info → Overrides md m m' → m' ∈ above) :
    VtableSound md (above ∪ {m | m ∈ virtualMethods md info}) slots.vtable slots.index := by
  obtain ⟨size, hassign, _, hvtable⟩ := extendSlots_some h
  have hle : parent.vtable.length ≤ size := assignSlots_le hassign
  have hlength : slots.vtable.length = size := by
    rw [hvtable, length_overrideSlots, length_copyVtable hle]
  have hown := assignSlots_assigned (virtualMethods_nodup md info)
    (fun m hm => owner_of_mem_virtualMethods hm) hassign
  have hframe : ∀ m ∈ above, slots.index m = parent.index m :=
    fun m hm => index_eq_parent h (habove m hm).2
  constructor
  · intro m hm m' hoverrides
    rw [hframe m' (hclosed m m' hm hoverrides)]
    cases hm with
    | inl hm =>
      rw [hframe m hm]
      exact hparent.overrides m hm m' hoverrides
    | inr hm =>
      cases hown.cases m hm with
      | inl hold =>
        obtain ⟨ancestor, _, hancestor, hindex⟩ := hold
        cases (virtualAncestor_iff hancestor hoverrides.1).2 hoverrides
        exact hindex
      | inr hnew => exact absurd hoverrides (hnew.1 m')
  · have hapart : ∀ m ∈ above, ∀ m' ∈ virtualMethods md info, (∀ a, ¬ Overrides md m' a) →
        slots.index m < slots.index m' := by
      intro m hm m' hm' hn'
      rw [hframe m hm]
      cases hown.cases m' hm' with
      | inl hold =>
        obtain ⟨ancestor, hoverrides, _⟩ := hold
        exact absurd hoverrides (hn' ancestor)
      | inr hnew => exact Nat.lt_of_lt_of_le (hparent.lt m hm) hnew.2.1
    intro m hm m' hm' hn hn' heq
    cases hm with
    | inl hm =>
      cases hm' with
      | inl hm' =>
        rw [hframe m hm, hframe m' hm'] at heq
        exact hparent.distinct m hm m' hm' hn hn' heq
      | inr hm' => exact absurd heq (Nat.ne_of_lt (hapart m hm m' hm' hn'))
    | inr hm =>
      cases hm' with
      | inl hm' => exact absurd heq.symm (Nat.ne_of_lt (hapart m' hm' m hm hn))
      | inr hm' => exact hown.distinct m hm m' hm' hn hn' heq
  · intro m hm
    rw [hlength]
    cases hm with
    | inl hm =>
      rw [hframe m hm]
      exact Nat.lt_of_lt_of_le (hparent.lt m hm) hle
    | inr hm =>
      cases hown.cases m hm with
      | inl hold =>
        obtain ⟨ancestor, hoverrides, _, hindex⟩ := hold
        have hlt := hparent.lt ancestor (hclosed m ancestor (.inr hm) hoverrides)
        exact hindex.trans_lt (Nat.lt_of_lt_of_le hlt hle)
      | inr hnew => exact hnew.2.2
  · intro slot hslot
    rw [hlength] at hslot
    have hcopy : slot < (copyVtable parent.vtable parent.vtable.length size).length := by
      rw [length_copyVtable hle]
      exact hslot
    rw [hvtable]
    cases overrideSlots_getElem? md slots.index (md.methods info) hcopy with
    | inl hlast =>
      -- the last of the class's own methods with this slot
      obtain ⟨pre, m, post, hsplit, hvirtual, hindex, hpost, hget⟩ := hlast
      have hm : m ∈ md.methods info := by simp [hsplit]
      have howner := owner_of_mem_methods hm
      refine ⟨m, .inr (mem_virtualMethods hm hvirtual), hget, hindex, fun m' hm' hindex' => ?_⟩
      cases hm' with
      | inl hm' =>
        obtain ⟨hinherits, hne⟩ := habove m' hm'
        exact ⟨howner.symm ▸ hinherits, fun heq => absurd (heq.symm.trans howner) hne⟩
      | inr hm' =>
        obtain ⟨hmem', hvirtual'⟩ := List.mem_filter.1 hm'
        have howner' := owner_of_mem_methods hmem'
        refine ⟨?_, fun _ => ?_⟩
        · rw [howner, howner']
          exact .refl
        · have hpairs := methods_pairwise md info
          rw [hsplit] at hmem' hpairs
          cases List.mem_append.1 hmem' with
          | inl hpre =>
            exact Nat.le_of_lt ((List.pairwise_append.1 hpairs).2.2 m' hpre m (List.mem_cons_self ..))
          | inr hrest =>
            cases List.mem_cons.1 hrest with
            | inl heq => exact Nat.le_of_eq (congrArg MemberId.posn heq)
            | inr hmem => exact absurd hindex' (hpost m' hmem hvirtual')
    | inr hkept =>
      -- no method of the class has this slot, so it is one of the parent's
      obtain ⟨hnone, hget⟩ := hkept
      have hlt : slot < parent.vtable.length := by
        apply Nat.lt_of_not_le
        intro hge
        obtain ⟨m, hm, hindex⟩ := hown.onto slot hge hslot
        obtain ⟨hmem, hvirtual⟩ := List.mem_filter.1 hm
        exact hnone m hmem hvirtual hindex
      obtain ⟨m, hm, hheld, hindex, hderived⟩ := hparent.holds slot hlt
      rw [hget, copyVtable_getElem? hlt]
      refine ⟨m, .inl hm, hheld, (hframe m hm).trans hindex, fun m' hm' hindex' => ?_⟩
      cases hm' with
      | inl hm' => exact hderived m' hm' ((hframe m' hm').symm.trans hindex')
      | inr hm' =>
        obtain ⟨hmem, hvirtual⟩ := List.mem_filter.1 hm'
        exact absurd hindex' (hnone m' hmem hvirtual)

/-- Induction from the root of the hierarchy down to a class. -/
theorem ClassHasSlots.induction {motive : ClassId → SlotTable → Prop}
    (step : ∀ info parent slots, ClassHasSlots md info slots → ParentHasSlots md info parent →
      extendSlots md info parent = some slots →
      (∀ p, md.parent info = some p → motive p parent) → motive info slots)
    {slots : SlotTable} (h : ClassHasSlots md info slots) : motive info slots := by
  obtain ⟨fuel, hfuel⟩ := id h
  induction fuel generalizing info slots with
  | zero => cases hfuel
  | succ fuel ih =>
    obtain ⟨parent, hparent, hextend⟩ := classHasSlots_iff.1 h
    refine step info parent slots h hparent hextend fun p hp => ?_
    unfold ParentHasSlots at hparent
    rw [hp] at hparent
    unfold classSlots classSlotsStep parentSlots at hfuel
    simp only [hp] at hfuel
    cases hslots : classSlots md fuel p with
    | none =>
      rw [hslots] at hfuel
      cases hfuel
    | some found =>
      cases hparent.unique ⟨fuel, hslots⟩
      exact ih hparent hslots

theorem ClassHasSlots.vtableSound {slots : SlotTable} (h : ClassHasSlots md info slots) :
    VtableSound md (hierarchyMethods md info) slots.vtable slots.index := by
  refine ClassHasSlots.induction (motive := fun info slots =>
    VtableSound md (hierarchyMethods md info) slots.vtable slots.index) ?_ h
  intro info parent slots h hparent hextend ih
  rw [hierarchyMethods_eq rfl]
  refine VtableSound.extend ?_ hextend ?_ ?_
  · cases hp : md.parent info with
    | none =>
      unfold ParentHasSlots at hparent
      rw [hp] at hparent
      subst hparent
      convert VtableSound.empty
      · simp
      · rfl
      · rfl
    | some p =>
      convert ih p hp
      simp
  · rintro m ⟨p, hp, hinherits, _⟩
    exact ⟨hinherits.of_parent hp, fun heq => h.acyclic hp (heq ▸ hinherits)⟩
  · intro m m' hm hoverrides
    obtain ⟨q, hq, _⟩ := hoverrides.2
    have hmem := hoverrides.mem hq
    cases hm with
    | inl hm =>
      obtain ⟨p, hp, hinherits, _⟩ := hm
      exact ⟨p, hp, hinherits.trans (hmem.1.of_parent hq), hmem.2⟩
    | inr hm =>
      rw [owner_of_mem_virtualMethods hm] at hq
      exact ⟨q, hq, hmem⟩

/-! ### What `LayoutClass` records -/

theorem VtableSound.congr {methods : Set MemberId} {vtable : List (Option MemberId)}
    {index index' : MemberId → Nat} (h : VtableSound md methods vtable index)
    (hclosed : ∀ m ∈ methods, ∀ a, Overrides md m a → a ∈ methods)
    (hindex : ∀ m ∈ methods, index m = index' m) : VtableSound md methods vtable index' := by
  constructor
  · intro m hm m' hoverrides
    rw [← hindex m hm, ← hindex m' (hclosed m hm m' hoverrides)]
    exact h.overrides m hm m' hoverrides
  · intro m hm m' hm' hn hn' heq
    rw [← hindex m hm, ← hindex m' hm'] at heq
    exact h.distinct m hm m' hm' hn hn' heq
  · intro m hm
    rw [← hindex m hm]
    exact h.lt m hm
  · intro slot hslot
    obtain ⟨m, hm, hget, heq, hderived⟩ := h.holds slot hslot
    refine ⟨m, hm, hget, (hindex m hm).symm.trans heq, fun m' hm' heq' => ?_⟩
    exact hderived m' hm' ((hindex m' hm').trans heq')

theorem Overrides.mem_hierarchy (hm : m ∈ hierarchyMethods md info) (h : Overrides md m m') :
    m' ∈ hierarchyMethods md info := by
  obtain ⟨p, hp, _⟩ := h.2
  have hmem := h.mem hp
  exact ⟨hm.1.trans (hmem.1.of_parent hp), hmem.2⟩

variable {pf : Platform} {s t : LayoutState}

/-- Whenever `LayoutClass` accepts a class: an override has the slot of the method it
overrides, no two of the other virtual methods of the hierarchy share a slot, every slot
holds the most derived of its methods, and the vtable is no shorter than the parent's. -/
theorem layoutClass_vtable (hs : Reachable md pf s) {fuel : Nat} {layout : LayoutInfo}
    (hrun : layoutClass md pf fuel info s = .ok layout t) :
    layout.vtableSize = layout.vtable.length ∧
      VtableSound md (hierarchyMethods md info) layout.vtable t.index ∧
      ∀ parent r fuel' u layout', md.parent info = some parent → Reachable md pf r →
        layoutClass md pf fuel' parent r = .ok layout' u →
        layout'.vtable.length ≤ layout.vtable.length := by
  have hrefines := hs.refines hrun
  obtain ⟨slots, hslots, hare⟩ := hrefines.slots
  refine ⟨?_, ?_, ?_⟩
  · rw [hare.vtableSize, hare.vtable]
  · rw [hare.vtable]
    refine hslots.vtableSound.congr (fun m hm a ha => ha.mem_hierarchy hm) fun m hm => ?_
    exact (hslots.slotPlaced hm.1 hm.2).unique (hrefines.settled.slotted _ hm.1 m hm.2)
  · intro parent r fuel' u layout' hparent hr hrun'
    obtain ⟨slots', hslots', hare'⟩ := (hr.refines hrun').slots
    obtain ⟨above, habove, hextend⟩ := classHasSlots_iff.1 hslots
    unfold ParentHasSlots at habove
    rw [hparent] at habove
    obtain rfl := habove.unique hslots'
    obtain ⟨size, hassign, _, hvtable⟩ := extendSlots_some hextend
    have hle : above.vtable.length ≤ size := assignSlots_le hassign
    rw [hare.vtable, hare'.vtable, hvtable, length_overrideSlots, length_copyVtable hle]
    exact hle

/-- A class and its parent with a virtual method of one name and signature each. -/
def sameMethodTwice (access : MemberAccess) : Metadata where
  classes := [{ methods := [method] }, { parent := some 0, methods := [method] }]
  imageIsSecure _ := false
where
  method : ILMethod :=
    { name := "m", signature := .signature ilTypeComplexMethod 0 ilTypeVoid []
      access := access }

theorem layoutClass_vtable_sameMethodTwice :
    ∃ layout t, layoutClass (sameMethodTwice .publicAccess) .lp64 3 1
        (.initial (sameMethodTwice .publicAccess)) = .ok layout t ∧
      layout.vtableSize = layout.vtable.length ∧
      VtableSound (sameMethodTwice .publicAccess)
        (hierarchyMethods (sameMethodTwice .publicAccess) 1) layout.vtable t.index := by
  have hreturns : returns (layoutClass (sameMethodTwice .publicAccess) .lp64 3 1
      (.initial (sameMethodTwice .publicAccess))) (·.vtable == [some ⟨1, 0⟩]) = true := by
    decide +kernel
  obtain ⟨layout, t, hrun, _⟩ := returns_ok hreturns
  have hsound := layoutClass_vtable .initial hrun
  exact ⟨layout, t, hrun, hsound.1, hsound.2.1⟩

/-- A method that the class below may not access is not overridden there. -/
theorem layoutClass_vtable_private :
    ∃ layout t, layoutClass (sameMethodTwice .privateAccess) .lp64 3 1
        (.initial (sameMethodTwice .privateAccess)) = .ok layout t ∧
      (sameMethodTwice .privateAccess).parent 1 = some 0 ∧
      (⟨0, 0⟩ : MemberId) ∈ virtualMethods (sameMethodTwice .privateAccess) 0 ∧
      (⟨1, 0⟩ : MemberId) ∈ virtualMethods (sameMethodTwice .privateAccess) 1 ∧
      sameNameAndSignature (sameMethodTwice .privateAccess) ⟨0, 0⟩ ⟨1, 0⟩ = true ∧
      ((sameMethodTwice .privateAccess).method ⟨1, 0⟩).newSlot = false ∧
      t.index ⟨1, 0⟩ ≠ t.index ⟨0, 0⟩ := by
  have hreturns : returnsIn (layoutClass (sameMethodTwice .privateAccess) .lp64 3 1
      (.initial (sameMethodTwice .privateAccess)))
      (fun _ t => t.index ⟨1, 0⟩ != t.index ⟨0, 0⟩) = true := by
    decide +kernel
  obtain ⟨layout, t, hrun, hindex⟩ := returnsIn_ok hreturns
  exact ⟨layout, t, hrun, rfl, by decide, by decide, by decide +kernel, rfl, bne_iff_ne.1 hindex⟩

end Pnet.Engine
