import Mathlib.Data.List.Induction
import Pnet.Cscc.Overload

/-! Is the best candidate found, in every order of the members? -/
namespace Pnet.Cscc
open Pnet.Image Pnet.Lib

namespace CSProgram

section Spec

variable {T N I C : Type*} [DecidableEq T] [DecidableEq C] (p : CSProgram T N I C)
  (args : List (CSEvalArg T N))

/-! ### What should hold -/

def isSigned : ILIntegerType → Bool
  | .int8 | .int16 | .int32 | .int64 => true
  | _ => false

/-- The conversions where a signed type is preferred to every type without sign that it does
not convert to. -/
def conversion (sType t1Type t2Type : T) : Better :=
  p.betterConversionBy (fun t1 t2 => isSigned t1 && !isSigned t2) sType t1Type t2Type

/-- No conversion of an argument is worse and at least one is better, or all are equally good
and only the other item is applicable in its expanded form. -/
def IsBetter (item other : I) : Prop :=
  let form1 := p.csItemIsCandidate args item
  let form2 := p.csItemIsCandidate args other
  let conversions := p.compareArgs p.conversion item form1 other form2 args 0 0
  ((∀ better ∈ conversions, better ≠ .t2) ∧ ∃ better ∈ conversions, better = .t1) ∨
    ((∀ better ∈ conversions, better = .neither) ∧ form1 ≠ 2 ∧ form2 = 2)

def IsBest (members : List I) (item : I) : Prop :=
  item ∈ members ∧ ∀ other ∈ members, other ≠ item → p.IsBetter args item other

/-- The choice from a group, in whatever order its members were found. -/
structure ResolvesBest (group : List I) : Prop where
  best : ∀ order : List I, order.Perm group → 2 ≤ (p.reduceMethodGroup args order).length →
    ∀ item, p.csBestCandidate args (p.reduceMethodGroup args order) = some item ↔
      p.IsBest args ((p.reduceMethodGroup args order).map Prod.fst) item
  order : ∀ order order' : List I, order.Perm group → order'.Perm group →
    p.chooseMember args order = p.chooseMember args order'

/-! ### When it holds -/

def applicable (group : List I) : List I :=
  group.filter fun item => p.csItemIsCandidate args item ≠ 0

/-- A class that has one of the items, and that no class of an item is derived from. -/
def LowestOf (items : List I) : Option C → Prop
  | none => ∀ item ∈ items, p.owner item = none
  | some lowest => (∃ item ∈ items, p.owner item = some lowest) ∧
    ∀ item ∈ items, ∀ owner, p.owner item = some owner →
      p.hierarchy.csIsBaseTypeFor lowest owner = false

def membersOf (group : List I) (lowest : Option C) : List I :=
  (p.applicable args group).filter (p.inLowest lowest)

/-- The comparison of two candidates in a scan that starts with a third. -/
def scanJudge (first bestItem testItem : I) : Scan.Verdict :=
  p.judge args (p.csItemIsCandidate args first) bestItem testItem
    (p.csItemIsCandidate args testItem)

/-- Either there is a best candidate and every scan comes to it, or there is none and no two
candidates are told apart. -/
def Decided (members : List I) : Prop :=
  (∃ item, p.IsBest args members item ∧ Scan.Dominates (p.scanJudge args) members item) ∨
    (∀ item, ¬ p.IsBest args members item) ∧
      ∀ item ∈ members, ∀ other ∈ members, item ≠ other →
        p.scanJudge args item item other = .neither

end Spec

/-! ### Better items -/

section Better

variable {T N I C : Type*} [DecidableEq T] {p : CSProgram T N I C} {args : List (CSEvalArg T N)}

def swap : Better → Better
  | .t1 => .t2
  | .t2 => .t1
  | better => better

variable (p) in
omit [DecidableEq T] in
/-- A sign is not preferred both ways. -/
theorem not_prefers_both (t1Type t2Type : T)
    (h : p.prefersType (fun t1 t2 => isSigned t1 && !isSigned t2) t1Type t2Type = true) :
    p.prefersType (fun t1 t2 => isSigned t1 && !isSigned t2) t2Type t1Type = false := by
  unfold prefersType at h ⊢
  generalize p.integerType t1Type = integer1 at h ⊢
  generalize p.integerType t2Type = integer2 at h ⊢
  cases integer1 with
  | none => cases h
  | some t1 =>
    cases integer2 with
    | none => rfl
    | some t2 => cases t1 <;> cases t2 <;> first | rfl | cases h

theorem conversion_swap (sType t1Type t2Type : T) :
    p.conversion sType t2Type t1Type = swap (p.conversion sType t1Type t2Type) := by
  unfold conversion betterConversionBy
  by_cases heq : t1Type = t2Type
  · simp [heq, swap]
  · rw [if_neg heq, if_neg (Ne.symm heq)]
    by_cases h1 : sType = t1Type
    · have h2 : sType ≠ t2Type := fun h => heq (h1.symm.trans h)
      rw [if_neg h2, if_pos h1, if_pos h1]
      rfl
    · by_cases h2 : sType = t2Type
      · rw [if_pos h2, if_neg h1, if_pos h2]
        rfl
      · rw [if_neg h2, if_neg h1, if_neg h1, if_neg h2]
        have hboth := not_prefers_both p t1Type t2Type
        generalize p.prefersType _ t1Type t2Type = prefers12 at hboth ⊢
        generalize p.prefersType _ t2Type t1Type = prefers21 at hboth ⊢
        cases p.ilCanCoerce false t1Type t2Type <;> cases p.ilCanCoerce false t2Type t1Type <;>
          cases prefers12 <;> cases prefers21 <;> first | rfl | cases hboth rfl

omit [DecidableEq T] in
theorem compareArgs_swap {better : T → T → T → Better}
    (hswap : ∀ sType t1Type t2Type, better sType t2Type t1Type = swap (better sType t1Type t2Type))
    (item1 item2 : I) (form1 form2 : Nat) (args : List (CSEvalArg T N)) (paramNum1 paramNum2 : Nat) :
    p.compareArgs better item2 form2 item1 form1 args paramNum2 paramNum1 =
      (p.compareArgs better item1 form1 item2 form2 args paramNum1 paramNum2).map swap := by
  induction args generalizing paramNum1 paramNum2 with
  | nil => rfl
  | cons arg args ih =>
    unfold compareArgs
    cases p.getItemExpandedType item1 form1 paramNum1 with
    | none => cases p.getItemExpandedType item2 form2 paramNum2 <;> rfl
    | some param1 =>
      cases p.getItemExpandedType item2 form2 paramNum2 with
      | none => rfl
      | some param2 =>
        dsimp only
        rw [Bool.or_comm (isSkipped param2.1)]
        split_ifs <;> first | exact ih _ _ | rw [List.map_cons, ih, hswap]

theorem IsBetter.asymm {item other : I} (h : p.IsBetter args item other) :
    ¬ p.IsBetter args other item := by
  unfold IsBetter at h ⊢
  dsimp only at h ⊢
  rw [compareArgs_swap conversion_swap item other]
  generalize p.compareArgs p.conversion item (p.csItemIsCandidate args item) other
    (p.csItemIsCandidate args other) args 0 0 = conversions at h ⊢
  intro h'
  cases h with
  | inl h =>
    obtain ⟨_, better, hmem, rfl⟩ := h
    cases h' with
    | inl h' => exact h'.1 .t2 (List.mem_map.2 ⟨.t1, hmem, rfl⟩) rfl
    | inr h' => cases h'.1 .t2 (List.mem_map.2 ⟨.t1, hmem, rfl⟩)
  | inr h =>
    obtain ⟨hequal, hform, _⟩ := h
    cases h' with
    | inl h' =>
      obtain ⟨_, better, hmem, rfl⟩ := h'
      obtain ⟨better, hmem, hswap⟩ := List.mem_map.1 hmem
      rw [hequal better hmem] at hswap
      cases hswap
    | inr h' => exact hform h'.2.2

theorem IsBest.unique {members : List I} {item item' : I} (h : p.IsBest args members item)
    (h' : p.IsBest args members item') : item = item' := by
  by_contra hne
  exact (h.2 item' h'.1 (Ne.symm hne)).asymm (h'.2 item h.1 hne)

theorem isBest_perm {members members' : List I} (h : members.Perm members') (item : I) :
    p.IsBest args members item ↔ p.IsBest args members' item := by
  simp [IsBest, h.mem_iff]

end Better

/-! ### The lowest owner -/

section Lowest

variable {T N I C : Type*} [DecidableEq C] {p : CSProgram T N I C}

variable (p) in
/-- The scan for the lowest owner among items. -/
def lowestOwner (lowest : Option C) (item : I) : Option C :=
  match p.owner item, lowest with
  | none, lowest => lowest
  | some owner, none => some owner
  | some owner, some lowest =>
    if p.hierarchy.csIsBaseTypeFor lowest owner then some owner else some lowest

theorem owner_lowestOwner_none {item : I} (h : p.owner item = none) (lowest : Option C) :
    p.lowestOwner lowest item = lowest := by
  unfold lowestOwner
  rw [h]

theorem lowestOf_snoc_some {items : List I} {item : I} {lowest : C} :
    p.LowestOf (items ++ [item]) (some lowest) ↔
      ((∃ other ∈ items, p.owner other = some lowest) ∨ p.owner item = some lowest) ∧
      (∀ other ∈ items, ∀ owner, p.owner other = some owner →
        p.hierarchy.csIsBaseTypeFor lowest owner = false) ∧
      ∀ owner, p.owner item = some owner →
        p.hierarchy.csIsBaseTypeFor lowest owner = false := by
  simp [LowestOf, or_and_right, exists_or, or_imp, forall_and]

theorem LowestOf.snoc {items : List I} {lowest : Option C} (h : p.LowestOf items lowest)
    (item : I) : p.LowestOf (items ++ [item]) (p.lowestOwner lowest item) := by
  cases howner : p.owner item with
  | none =>
    rw [owner_lowestOwner_none howner]
    cases lowest with
    | none =>
      intro other hother
      cases List.mem_append.1 hother with
      | inl hold => exact h other hold
      | inr hnew => rw [List.mem_singleton.1 hnew, howner]
    | some lowest =>
      apply lowestOf_snoc_some.2
      refine ⟨.inl h.1, h.2, fun owner howner' => ?_⟩
      cases howner.symm.trans howner'
  | some owner =>
    have hitem : ∀ lowest, p.hierarchy.csIsBaseTypeFor lowest owner = false →
        ∀ owner, p.owner item = some owner →
          p.hierarchy.csIsBaseTypeFor lowest owner = false := by
      intro lowest hbase owner' howner'
      rw [← Option.some.inj (howner.symm.trans howner')]
      exact hbase
    have hself := p.hierarchy.not_csIsBaseTypeFor_self owner
    unfold lowestOwner
    rw [howner]
    cases lowest with
    | none =>
      apply lowestOf_snoc_some.2
      refine ⟨.inr howner, fun other hother owner' howner' => ?_, hitem owner hself⟩
      cases (h other hother).symm.trans howner'
    | some lowest =>
      obtain ⟨hsome, hnone⟩ := h
      dsimp only
      split_ifs with hbase
      · apply lowestOf_snoc_some.2
        refine ⟨.inr howner, fun other hother owner' howner' => ?_, hitem owner hself⟩
        by_contra hderived
        have htrans := ClassHierarchy.csIsBaseTypeFor_trans hbase (Bool.of_not_eq_false hderived)
        rw [hnone other hother owner' howner'] at htrans
        cases htrans
      · apply lowestOf_snoc_some.2
        exact ⟨.inl hsome, hnone, hitem lowest (Bool.of_not_eq_true hbase)⟩

/-- The scan for the lowest owner. -/
theorem lowestOf_foldl (items : List I) : p.LowestOf items (items.foldl p.lowestOwner none) := by
  induction items using List.reverseRecOn with
  | nil => exact fun item hitem => absurd hitem List.not_mem_nil
  | append_singleton items item ih =>
    rw [List.foldl_append]
    exact ih.snoc item

theorem foldl_lowest_stay {items : List I} {lowest : C}
    (h : ∀ item ∈ items, ∀ owner, p.owner item = some owner →
      p.hierarchy.csIsBaseTypeFor lowest owner = false) :
    items.foldl p.lowestOwner (some lowest) = some lowest := by
  induction items with
  | nil => rfl
  | cons item items ih =>
    obtain ⟨hitem, hrest⟩ := List.forall_mem_cons.1 h
    have hstep : p.lowestOwner (some lowest) item = some lowest := by
      unfold lowestOwner
      cases howner : p.owner item with
      | none => rfl
      | some owner => simp [hitem owner howner]
    rw [List.foldl_cons, hstep]
    exact ih hrest

/-- With the items of the lowest owner in front, it is the one that is found. -/
theorem foldl_lowest_front {front rest : List I} {lowest : Option C}
    (hlowest : p.LowestOf (front ++ rest) lowest)
    (hfront : ∀ item ∈ front, p.inLowest lowest item = true)
    (hrest : ∀ item ∈ rest, p.inLowest lowest item = false) :
    (front ++ rest).foldl p.lowestOwner none = lowest := by
  cases lowest with
  | none =>
    generalize front ++ rest = items at hlowest
    induction items with
    | nil => rfl
    | cons item items ih =>
      obtain ⟨hitem, hrest⟩ := List.forall_mem_cons.1 hlowest
      rw [List.foldl_cons, owner_lowestOwner_none hitem]
      exact ih hrest
  | some lowest =>
    obtain ⟨⟨witness, hwitness, howner⟩, hnone⟩ := hlowest
    have hmem : witness ∈ front := by
      cases List.mem_append.1 hwitness with
      | inl hmem => exact hmem
      | inr hmem =>
        have hfalse := hrest witness hmem
        simp [inLowest, howner] at hfalse
    clear hwitness
    induction front with
    | nil => cases hmem
    | cons item front ih =>
      obtain ⟨hitem, hfront⟩ := List.forall_mem_cons.1 hfront
      obtain ⟨hitem', hnone⟩ := List.forall_mem_cons.1 hnone
      rw [List.cons_append, List.foldl_cons]
      cases hcase : p.owner item with
      | none =>
        rw [owner_lowestOwner_none hcase]
        apply ih hfront hnone
        cases hmem with
        | head => cases hcase.symm.trans howner
        | tail _ hmem => exact hmem
      | some owner =>
        have hsame : owner = lowest := by simpa [inLowest, hcase] using hitem
        have hstep : p.lowestOwner none item = some lowest := by
          unfold lowestOwner
          rw [hcase, hsame]
        rw [hstep]
        exact foldl_lowest_stay hnone

end Lowest

/-! ### Candidates -/

section Reduce

variable {T N I C : Type*} [DecidableEq T] [DecidableEq C] {p : CSProgram T N I C}
  {args : List (CSEvalArg T N)}

theorem keepCandidates_fst (group : List I) (lowestOwner : Option C) :
    (p.keepCandidates args group lowestOwner).1 =
      (p.applicable args group).map fun item => (item, p.csItemIsCandidate args item) := by
  induction group generalizing lowestOwner with
  | nil => rfl
  | cons item group ih =>
    unfold keepCandidates applicable
    by_cases hform : p.csItemIsCandidate args item = 0
    · simp [hform, ih, applicable]
    · simp [hform, ih, applicable]

theorem keepCandidates_snd (group : List I) (lowest : Option C) :
    (p.keepCandidates args group lowest).2 =
      (p.applicable args group).foldl (p.lowestOwner) lowest := by
  induction group generalizing lowest with
  | nil => rfl
  | cons item group ih =>
    unfold keepCandidates applicable
    by_cases hform : p.csItemIsCandidate args item = 0
    · simp [hform, ih, applicable]
    · simp [hform, ih, applicable]
      rfl

theorem reduceMethodGroup_eq (group : List I) :
    p.reduceMethodGroup args group =
      (p.membersOf args group ((p.applicable args group).foldl p.lowestOwner none)).map
        fun item => (item, p.csItemIsCandidate args item) := by
  unfold reduceMethodGroup membersOf
  dsimp only
  rw [keepCandidates_fst, keepCandidates_snd, List.filter_map]
  rfl

omit [DecidableEq C] in
theorem bestCandidateLoop_eq (first bestItem : I) (sawBetter : Bool) (members : List I) :
    p.bestCandidateLoop args (p.csItemIsCandidate args first) bestItem sawBetter
      (members.map fun item => (item, p.csItemIsCandidate args item)) =
      Scan.scan (p.scanJudge args) first bestItem sawBetter members := by
  induction members generalizing bestItem sawBetter with
  | nil => rfl
  | cons item members ih =>
    rw [List.map_cons, bestCandidateLoop, Scan.scan, scanJudge]
    cases p.judge args (p.csItemIsCandidate args first) bestItem item
      (p.csItemIsCandidate args item) <;> exact ih _ _

omit [DecidableEq C] in
theorem csBestCandidate_eq (members : List I) :
    p.csBestCandidate args (members.map fun item => (item, p.csItemIsCandidate args item)) =
      Scan.pick (p.scanJudge args) members := by
  cases members with
  | nil => rfl
  | cons first members => exact bestCandidateLoop_eq first first false members

omit [DecidableEq T] in
theorem lowestOf_perm {items items' : List I} (h : items.Perm items') (lowest : Option C) :
    p.LowestOf items lowest ↔ p.LowestOf items' lowest := by
  cases lowest <;> simp [LowestOf, h.mem_iff]

variable {group : List I} {lowest : Option C}

omit [DecidableEq C] in
theorem applicable_perm {order : List I} (h : order.Perm group) :
    (p.applicable args order).Perm (p.applicable args group) :=
  h.filter _

variable (p args) in
theorem membersOf_perm {order : List I} (h : order.Perm group) (lowest : Option C) :
    (p.membersOf args order lowest).Perm (p.membersOf args group lowest) :=
  (applicable_perm h).filter _

variable (p args) in
/-- Each order keeps the members of one of the lowest owners. -/
theorem exists_lowest {order : List I} (h : order.Perm group) :
    ∃ lowest, p.LowestOf (p.applicable args group) lowest ∧
      p.reduceMethodGroup args order = (p.membersOf args order lowest).map
        fun item => (item, p.csItemIsCandidate args item) :=
  ⟨_, (lowestOf_perm (applicable_perm h) _).1 (lowestOf_foldl _), reduceMethodGroup_eq order⟩

/-- The members of each of the lowest owners are what some order keeps, in any order. -/
theorem exists_order (hlowest : p.LowestOf (p.applicable args group) lowest)
    {members : List I} (h : members.Perm (p.membersOf args group lowest)) :
    ∃ order, order.Perm group ∧ p.reduceMethodGroup args order =
      members.map fun item => (item, p.csItemIsCandidate args item) := by
  have hmembers : ∀ item ∈ members, p.csItemIsCandidate args item ≠ 0 ∧
      p.inLowest lowest item = true := by
    intro item hitem
    have hmem := h.mem_iff.1 hitem
    simpa [membersOf, applicable, and_assoc] using (List.mem_filter.1 hmem).imp_left fun hmem =>
      (List.mem_filter.1 hmem).2
  let rest := group.filter fun item =>
    !(p.inLowest lowest item && decide (p.csItemIsCandidate args item ≠ 0))
  have hperm : (members ++ rest).Perm group := by
    have hfilter : p.membersOf args group lowest = group.filter fun item =>
        p.inLowest lowest item && decide (p.csItemIsCandidate args item ≠ 0) := by
      rw [membersOf, applicable, List.filter_filter]
    rw [hfilter] at h
    exact (h.append_right rest).trans (List.filter_append_perm _ group)
  have hfront : p.applicable args members = members := by
    apply List.filter_eq_self.2
    intro item hitem
    simpa using (hmembers item hitem).1
  have hrest : ∀ item ∈ p.applicable args rest, p.inLowest lowest item = false := by
    intro item hitem
    obtain ⟨hitem, hform⟩ := List.mem_filter.1 hitem
    have hnot := (List.mem_filter.1 hitem).2
    simp only [Bool.not_and, Bool.or_eq_true, Bool.not_eq_true'] at hnot
    cases hnot with
    | inl hnot => exact hnot
    | inr hnot =>
      rw [hnot] at hform
      cases hform
  have happlicable : p.applicable args (members ++ rest) = members ++ p.applicable args rest := by
    rw [applicable, List.filter_append]
    congr 1
  have hfound : (p.applicable args (members ++ rest)).foldl p.lowestOwner none = lowest := by
    rw [happlicable]
    apply foldl_lowest_front _ (fun item hitem => (hmembers item hitem).2) hrest
    rw [← happlicable]
    exact (lowestOf_perm (applicable_perm hperm) lowest).2 hlowest
  refine ⟨members ++ rest, hperm, ?_⟩
  rw [reduceMethodGroup_eq, hfound, membersOf, happlicable, List.filter_append]
  congr 1
  have hkept : members.filter (p.inLowest lowest) = members := by
    apply List.filter_eq_self.2
    intro item hitem
    exact (hmembers item hitem).2
  have hdropped : (p.applicable args rest).filter (p.inLowest lowest) = [] := by
    apply List.filter_eq_nil_iff.2
    intro item hitem
    simp [hrest item hitem]
  rw [hkept, hdropped, List.append_nil]

end Reduce

/-! ### The choice -/

section Choice

variable {T N I C : Type*} [DecidableEq T] [DecidableEq C] {p : CSProgram T N I C}
  {args : List (CSEvalArg T N)} {group members : List I}

omit [DecidableEq C] in
theorem decided_iff (hnodup : members.Nodup) :
    (∀ order : List I, order.Perm members → ∀ item,
      Scan.pick (p.scanJudge args) order = some item ↔ p.IsBest args members item) ↔
    p.Decided args members := by
  constructor
  · intro h
    by_cases hbest : ∃ item, p.IsBest args members item
    · obtain ⟨item, hitem⟩ := hbest
      refine .inl ⟨item, hitem, (Scan.pick_perm_iff hnodup hitem.1).1 fun order hperm => ?_⟩
      exact (h order hperm item).2 hitem
    · have hnone : ∀ item, ¬ p.IsBest args members item := not_exists.1 hbest
      refine .inr ⟨hnone, (Scan.pick_none_iff hnodup).1 fun order hperm => ?_⟩
      apply Option.eq_none_iff_forall_ne_some.2
      intro item hitem
      exact hnone item ((h order hperm item).1 hitem)
  · intro h order hperm item
    cases h with
    | inl h =>
      obtain ⟨best, hbest, hdom⟩ := h
      rw [(Scan.pick_perm_iff hnodup hbest.1).2 hdom order hperm]
      constructor
      · intro heq
        rw [← Option.some.inj heq]
        exact hbest
      · intro hitem
        rw [hbest.unique hitem]
    | inr h =>
      rw [(Scan.pick_none_iff hnodup).2 h.2 order hperm]
      exact iff_of_false (by simp) (h.1 item)

omit [DecidableEq C] in
theorem isBest_singleton (item other : I) : p.IsBest args [item] other ↔ other = item := by
  constructor
  · intro h
    exact List.mem_singleton.1 h.1
  · rintro rfl
    refine ⟨by simp, fun other hother hne => ?_⟩
    exact absurd (List.mem_singleton.1 hother) hne

omit [DecidableEq C] in
theorem map_form_fst (members : List I) :
    (members.map fun item => (item, p.csItemIsCandidate args item)).map Prod.fst = members := by
  rw [List.map_map]
  exact List.map_id members

/-- The choice among the members that an order keeps. -/
theorem chooseMember_iff {order : List I} (hreduce : p.reduceMethodGroup args order =
      members.map fun item => (item, p.csItemIsCandidate args item))
    (hpick : 2 ≤ members.length → ∀ item,
      Scan.pick (p.scanJudge args) members = some item ↔ p.IsBest args members item)
    (item : I) : p.chooseMember args order = some item ↔ p.IsBest args members item := by
  unfold chooseMember
  rw [hreduce]
  match members with
  | [] =>
    apply iff_of_false (by simp)
    intro h
    cases h.1
  | [single] =>
    rw [isBest_singleton]
    exact Option.some_inj.trans eq_comm
  | first :: second :: members =>
    rw [← hpick (by simp), ← csBestCandidate_eq]
    rfl

/-- Which orders keep which members settles the choice. -/
theorem decided_of_resolvesBest (hnodup : group.Nodup) (h : p.ResolvesBest args group)
    {lowest : Option C} (hlowest : p.LowestOf (p.applicable args group) lowest)
    (hlength : 2 ≤ (p.membersOf args group lowest).length) :
    p.Decided args (p.membersOf args group lowest) := by
  apply (decided_iff ((hnodup.filter _).filter _)).1
  intro members hmembers item
  obtain ⟨order, hperm, hreduce⟩ := exists_order hlowest hmembers
  have hbest := h.best order hperm
  rw [hreduce, List.length_map, hmembers.length_eq, csBestCandidate_eq, map_form_fst] at hbest
  rw [hbest hlength item]
  exact isBest_perm hmembers item

theorem pick_of_decided (hnodup : group.Nodup) {lowest : Option C} {order : List I}
    (hperm : order.Perm group)
    (h : 2 ≤ (p.membersOf args group lowest).length →
      p.Decided args (p.membersOf args group lowest))
    (hlength : 2 ≤ (p.membersOf args order lowest).length) (item : I) :
    Scan.pick (p.scanJudge args) (p.membersOf args order lowest) = some item ↔
      p.IsBest args (p.membersOf args order lowest) item := by
  have hmembers := membersOf_perm p args hperm lowest
  rw [hmembers.length_eq] at hlength
  rw [isBest_perm hmembers]
  exact (decided_iff ((hnodup.filter _).filter _)).2 (h hlength) _ hmembers item

end Choice

/-! ### Integer arguments -/

/-- The implicit conversions between integer types. -/
def coercesInteger : ILIntegerType → ILIntegerType → Bool
  | .int8, t => t ∈ [.int8, .int16, .int32, .int64]
  | .uint8, t => t ∉ [.int8]
  | .int16, t => t ∈ [.int16, .int32, .int64]
  | .uint16, t => t ∈ [.uint16, .int32, .uint32, .int64, .uint64]
  | .int32, t => t ∈ [.int32, .int64]
  | .uint32, t => t ∈ [.uint32, .int64, .uint64]
  | .int64, t => t ∈ [.int64]
  | .uint64, t => t ∈ [.uint64]

/-- One class, where each integer type is the parameter of a method. -/
def integerMethods : CSProgram ILIntegerType Unit ILIntegerType Unit where
  ilCanCoerce _ := coercesInteger
  ilCanCoerceNode _ := coercesInteger
  csCastMethod _ _ _ := false
  getArrayElemType _ := none
  isNull _ := false
  integerType := some
  getItemSignature item := some ⟨[(.empty, item)], item⟩
  owner _ := some ()
  hierarchy :=
    { parent := fun _ => none
      implements := fun _ => []
      rank := fun _ => 0
      rank_parent := fun h => by cases h
      rank_implements := fun h => by cases h
      parent_interface := fun _ => rfl }

def integerArgument (type : ILIntegerType) : List (CSEvalArg ILIntegerType Unit) :=
  [⟨(), type, .empty⟩]

end CSProgram

end Pnet.Cscc
