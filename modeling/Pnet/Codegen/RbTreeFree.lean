import Pnet.Codegen.RbTreeSound
import Mathlib.Data.List.Pairwise

/-! Freeing a tree of `codegen/cg_rbtree.c`. `FreeSubTree` follows the links as they are,
not as the macros read them: the walk down a chain of duplicates ends at a null pointer,
which is not `nil`. -/
namespace Pnet.Codegen
open Pnet.Lib Pnet.Lib.RedBlack

variable {N K : Type} [DecidableEq N]

/-- The call ends, and frees every node once. -/
def FreesAll (mem : Mem N) (inserted : List N) : Prop :=
  ∃ bound, ∀ fuel, bound ≤ fuel → ∃ mem' freed,
    ilRBTreeFree true fuel mem = some (.ok (mem', freed)) ∧ freed.Perm (inserted.map .node)

/-- No two of the nodes have equal keys. -/
def DifferentKeys (keyOf : N → K) (compareFunc : K → N → Int) (inserted : List N) : Prop :=
  inserted.Pairwise fun a b => compareFunc (keyOf a) b ≠ 0

def postorder : RedBlack.Tree (NodePtr N) → List (NodePtr N)
  | .nil => []
  | .node _ p left right => postorder left ++ postorder right ++ [p]

variable {le : K → K → Prop} {keyOf : N → K} {compareFunc : K → N → Int} {mem : Mem N}
  {inserted nodes : List N} {t : RedBlack.Tree (NodePtr N)} {total : Nat} {dups : N → List N} {m n : N}

omit [DecidableEq N] in
theorem postorder_perm (t : RedBlack.Tree (NodePtr N)) : (postorder t).Perm t.inorder := by
  induction t with
  | nil => exact .refl _
  | node c p left right ihl ihr =>
    have hcomm : (postorder left ++ postorder right ++ [p]).Perm
        (postorder left ++ p :: postorder right) := by
      rw [List.append_assoc]
      exact List.perm_append_comm.append_left _
    exact hcomm.trans (ihl.append (ihr.cons p))

/-- One step of the walk, at a node that is not null. -/
def freeChildren (mem : Mem N) (fuel : Nat) (temp : NodePtr N) :
    Option (Except Unit (List (NodePtr N))) :=
  if temp ≠ .nil then freeSubTree mem fuel temp else some (.ok [])

theorem freeSubTree_ok_iff {fuel : Nat} {p : NodePtr N} {freed : List (NodePtr N)}
    (hp : p ≠ .null) : freeSubTree mem (fuel + 1) p = some (.ok freed) ↔
      ∃ left right, freeChildren mem fuel (mem.node p).left = some (.ok left) ∧
        freeChildren mem fuel (mem.node p).right = some (.ok right) ∧
        freed = left ++ right ++ [p] := by
  have hsub (temp : NodePtr N) : (if temp ≠ .nil then freeSubTree mem fuel temp
      else some (.ok [])) = freeChildren mem fuel temp := rfl
  cases p
  case null => exact absurd rfl hp
  all_goals
    simp only [freeSubTree, hsub]
    cases freeChildren mem fuel (mem.node _).left with
    | none => simp
    | some r =>
      cases r with
      | error e => simp
      | ok left =>
        cases freeChildren mem fuel (mem.node _).right with
        | none => simp
        | some r =>
          cases r with
          | error e => simp
          | ok right => simp [eq_comm]

/-! ### Without duplicates -/

theorem freeChildren_plain (hrepr : (links N).Repr mem t)
    (hplain : ∀ p ∈ t.inorder, (mem.node p).duplicate = false ∧ ∃ n, p = .node n) {fuel : Nat}
    (hfuel : t.size ≤ fuel) :
    freeChildren mem fuel ((links N).ptr t) = some (.ok (postorder t)) := by
  induction t generalizing fuel with
  | nil => exact if_neg (by simp [Links.ptr, links])
  | node c p left right ihl ihr =>
    rw [RedBlack.Tree.size] at hfuel
    rw [RedBlack.Tree.inorder] at hplain
    obtain ⟨_, hleft, hright, hl, hr⟩ := hrepr
    obtain ⟨hdup, n, rfl⟩ := hplain p (by simp)
    cases fuel with
    | zero => cases hfuel
    | succ fuel =>
      change freeChildren mem (fuel + 1) (.node n) = _
      rw [freeChildren, if_pos (by simp), freeSubTree_ok_iff (by simp)]
      have hrawLeft : (mem.node (.node n)).left = (links N).ptr left := by
        rw [← hleft]
        simp [links, getLeft, hdup]
      have hrawRight : (mem.node (.node n)).right = (links N).ptr right := hright
      refine ⟨postorder left, postorder right, ?_, ?_, rfl⟩
      · rw [hrawLeft]
        exact ihl hl (fun p hp => hplain p (by simp [hp])) (by omega)
      · rw [hrawRight]
        exact ihr hr (fun p hp => hplain p (by simp [hp])) (by omega)

theorem Inv.freesAll (h : Inv keyOf compareFunc mem inserted t total nodes dups)
    (hnone : ∀ n ∈ nodes, dups n = []) : FreesAll mem inserted := by
  have hroot : (mem.node .head).right = (links N).ptr t := h.focus.hole
  have hplain : ∀ p ∈ t.inorder, (mem.node p).duplicate = false ∧ ∃ n, p = .node n := by
    intro p hp
    rw [h.inorder, List.mem_map] at hp
    obtain ⟨n, hn, rfl⟩ := hp
    refine ⟨?_, n, rfl⟩
    rw [(h.focus.inv.2 n hn).duplicate, hnone n hn]
    rfl
  have hperm : (nodes.map NodePtr.node).Perm (inserted.map .node) := by
    have hnodup : nodes.Nodup := by
      have hnodup := (List.nodup_cons.1 (List.nodup_cons.1 h.focus.nodup).2).2
      change t.inorder.Nodup at hnodup
      rw [h.inorder] at hnodup
      exact hnodup.of_map _
    refine ((List.perm_ext_iff_of_nodup hnodup h.nodup).2 fun n => ?_).map _
    constructor
    · exact fun hn => (h.mem_inserted hn).1
    · intro hn
      obtain ⟨n', hn', hzero⟩ := h.cover n hn
      have hmem : n ∈ n' :: dups n' := by
        rw [h.equal n' hn']
        exact mem_equalNodes.2 ⟨hn, hzero⟩
      rw [hnone n' hn', List.mem_singleton] at hmem
      exact hmem ▸ hn'
  refine ⟨t.size, fun fuel hfuel => ?_⟩
  have hfree := freeChildren_plain h.focus.tree hplain hfuel
  unfold freeChildren at hfree
  unfold ilRBTreeFree
  rw [hroot]
  have hfreed : (postorder t).Perm (inserted.map .node) :=
    (postorder_perm t).trans (h.inorder ▸ hperm)
  by_cases hnil : (links N).ptr t = .nil
  · rw [if_neg (by simpa using hnil)] at hfree ⊢
    refine ⟨mem, [], rfl, ?_⟩
    rw [← Except.ok.inj (Option.some.inj hfree)] at hfreed
    exact hfreed
  · rw [if_pos hnil] at hfree ⊢
    refine ⟨setNode mem .head ⟨.null, .nil, false, false, false⟩, postorder t, ?_, hfreed⟩
    simp only [↓reduceIte, hfree]

/-! ### With duplicates -/

theorem freeSubTree_chained {d : N} {rest : List N} (h : Chained mem (d :: rest)) (fuel : Nat)
    (freed : List (NodePtr N)) : freeSubTree mem fuel (.node d) ≠ some (.ok freed) := by
  induction rest generalizing d fuel freed with
  | nil =>
    cases fuel with
    | zero =>
      intro h
      cases h
    | succ fuel =>
      rw [ne_eq, freeSubTree_ok_iff (by simp), h.2.2]
      rintro ⟨_, right, _, hright, _⟩
      rw [freeChildren, if_pos (by simp)] at hright
      cases fuel <;> cases hright
  | cons e rest ih =>
    cases fuel with
    | zero =>
      intro h
      cases h
    | succ fuel =>
      rw [ne_eq, freeSubTree_ok_iff (by simp), h.2.2.1]
      rintro ⟨_, right, _, hright, _⟩
      rw [freeChildren, if_pos (by simp)] at hright
      exact ih h.2.2.2 fuel right hright

theorem freeChildren_dup (hinv : DupsInv nodes dups mem) (hrepr : (links N).Repr mem t)
    (hnodes : ∀ p ∈ t.inorder, ∃ n ∈ nodes, p = .node n) (hn : .node n ∈ t.inorder)
    (hdup : dups n ≠ []) (fuel : Nat) (freed : List (NodePtr N)) :
    freeChildren mem fuel ((links N).ptr t) ≠ some (.ok freed) := by
  induction t generalizing fuel freed with
  | nil => cases hn
  | node c p left right ihl ihr =>
    rw [RedBlack.Tree.inorder] at hn hnodes
    obtain ⟨_, hleft, hright, hl, hr⟩ := hrepr
    obtain ⟨m, hm, rfl⟩ := hnodes p (by simp)
    have howns := hinv.2 m hm
    change freeChildren mem fuel (.node m) ≠ _
    rw [freeChildren, if_pos (by simp)]
    cases fuel with
    | zero =>
      intro h
      cases h
    | succ fuel =>
      rw [ne_eq, freeSubTree_ok_iff (by simp)]
      rintro ⟨freedLeft, freedRight, hfreeLeft, hfreeRight, _⟩
      cases hds : dups m with
      | cons d rest =>
        rw [howns.first d rest hds, freeChildren, if_pos (by simp)] at hfreeLeft
        exact freeSubTree_chained (hds ▸ howns.chained) fuel freedLeft hfreeLeft
      | nil =>
        have hnone : (mem.node (.node m)).duplicate = false := by
          rw [howns.duplicate, hds]
          rfl
        have hrawLeft : (mem.node (.node m)).left = (links N).ptr left := by
          rw [← hleft]
          simp [links, getLeft, hnone]
        have hrawRight : (mem.node (.node m)).right = (links N).ptr right := hright
        rw [hrawLeft] at hfreeLeft
        rw [hrawRight] at hfreeRight
        simp only [List.mem_append, List.mem_cons] at hn
        obtain hn | hn | hn := hn
        · exact ihl hl (fun p hp => hnodes p (by simp [hp])) hn fuel freedLeft hfreeLeft
        · cases hn
          exact hdup hds
        · exact ihr hr (fun p hp => hnodes p (by simp [hp])) hn fuel freedRight hfreeRight

theorem Inv.not_freesAll (h : Inv keyOf compareFunc mem inserted t total nodes dups)
    (hn : n ∈ nodes) (hdup : dups n ≠ []) : ¬ FreesAll mem inserted := by
  rintro ⟨bound, hfree⟩
  obtain ⟨mem', freed, hrun, _⟩ := hfree bound (Nat.le_refl _)
  have hroot : (mem.node .head).right = (links N).ptr t := h.focus.hole
  have hmem : NodePtr.node n ∈ t.inorder := by
    rw [h.inorder]
    exact List.mem_map_of_mem hn
  have hnodes : ∀ p ∈ t.inorder, ∃ n ∈ nodes, p = .node n := by
    intro p hp
    rw [h.inorder, List.mem_map] at hp
    obtain ⟨n, hn, rfl⟩ := hp
    exact ⟨n, hn, rfl⟩
  have hnil : (links N).ptr t ≠ .nil := by
    cases t with
    | nil => cases hmem
    | node c p left right =>
      obtain ⟨n', _, rfl⟩ := hnodes p (by simp [RedBlack.Tree.inorder])
      intro h
      cases h
  have hnot := freeChildren_dup h.focus.inv h.focus.tree hnodes hmem hdup bound
  unfold freeChildren at hnot
  unfold ilRBTreeFree at hrun
  rw [if_pos hnil] at hnot
  rw [hroot, if_pos hnil] at hrun
  cases hsub : freeSubTree mem bound ((links N).ptr t) with
  | none => simp [hsub] at hrun
  | some r =>
    cases r with
    | error e => simp [hsub] at hrun
    | ok freed => exact hnot freed hsub

/-! ### After a run -/

omit [DecidableEq N] in
theorem DifferentKeys.symm (hcmp : TotalPreorder le keyOf compareFunc)
    (h : DifferentKeys keyOf compareFunc inserted) {a b : N} (ha : a ∈ inserted)
    (hb : b ∈ inserted) (hne : a ≠ b) : compareFunc (keyOf a) b ≠ 0 := by
  have hsymm : Std.Symm fun a b => compareFunc (keyOf a) b ≠ 0 :=
    ⟨fun a b hab hba => hab (hcmp.symm hba)⟩
  exact h.forall ha hb hne

/-- Where all keys are different, the root is black between insertions. -/
theorem Built.inv_of_differentKeys (hcmp : TotalPreorder le keyOf compareFunc)
    {ok : Mem N → N → Prop} (h : Built keyOf compareFunc ok inserted mem)
    (hkeys : DifferentKeys keyOf compareFunc inserted) :
    ∃ t total nodes dups, Inv keyOf compareFunc mem inserted t total nodes dups ∧
      t.red = false := by
  induction h with
  | init mem => exact ⟨_, _, _, _, inv_init mem, rfl⟩
  | @insert inserted mem mem' m fuel _ hm _ hinsert ih =>
    obtain ⟨hkeys', _, hcross⟩ := List.pairwise_append.1 hkeys
    obtain ⟨t, total, nodes, dups, hinv, hblack⟩ := ih hkeys'
    have hclear : Links.Clear (compare compareFunc (keyOf m)) t := by
      intro hred
      rw [hblack] at hred
      cases hred
    obtain ⟨bound, mem'', hrun, t', total', nodes', dups', hinv', hcase⟩ :=
      hinv.insert hcmp hm hclear
    have hmax := ilRBTreeInsert_mono hinsert (Nat.le_max_left fuel bound)
    rw [hrun _ (Nat.le_max_right fuel bound)] at hmax
    cases hmax
    refine ⟨t', total', nodes', dups', hinv', hcase.resolve_right ?_⟩
    rintro ⟨n, hn, hzero⟩
    exact hcross n hn m List.mem_cons_self (hcmp.symm hzero)

/-- Without equal keys, every node is freed once. With two of them, in a tree that is
still well formed, the walk reads through a null pointer. -/
theorem ilRBTreeFree_freesAll (hcmp : TotalPreorder le keyOf compareFunc)
    {ok : Mem N → N → Prop} (h : Built keyOf compareFunc ok inserted mem) :
    (DifferentKeys keyOf compareFunc inserted → FreesAll mem inserted) ∧
      (Built keyOf compareFunc
          (fun mem m => splitsBelowRedRoot compareFunc mem (keyOf m) = false) inserted mem →
        ¬ DifferentKeys keyOf compareFunc inserted → ¬ FreesAll mem inserted) := by
  constructor
  · intro hkeys
    obtain ⟨t, total, nodes, dups, hinv, _⟩ := h.inv_of_differentKeys hcmp hkeys
    refine hinv.freesAll fun n hn => List.eq_nil_iff_forall_not_mem.2 fun d hd => ?_
    obtain ⟨hd', hzero⟩ := (hinv.mem_inserted hn).2 d hd
    refine hkeys.symm hcmp (hinv.mem_inserted hn).1 hd' ?_ hzero
    rintro rfl
    exact (List.nodup_cons.1 (hinv.dups_nodup hn)).1 hd
  · intro hclear hkeys
    obtain ⟨t, total, nodes, dups, hinv⟩ := hclear.inv hcmp
    by_contra hfree
    refine hkeys ?_
    have hnone : ∀ n ∈ nodes, dups n = [] := by
      intro n hn
      by_contra hdup
      exact hinv.not_freesAll hn hdup hfree
    refine hinv.nodup.imp_of_mem fun {a b} ha hb hne hzero => hne ?_
    obtain ⟨n, hn, hna⟩ := hinv.cover a ha
    have hmem : ∀ c ∈ inserted, compareFunc (keyOf n) c = 0 → c = n := by
      intro c hc hnc
      have hc' : c ∈ n :: dups n := by
        rw [hinv.equal n hn]
        exact mem_equalNodes.2 ⟨hc, hnc⟩
      rwa [hnone n hn, List.mem_singleton] at hc'
    have hnb : compareFunc (keyOf n) b = 0 := (hcmp.congr hna b).1.2 hzero
    rw [hmem a ha hna, hmem b hb hnb]

theorem ilRBTreeFree_freesAll_four :
    ∃ mem, FreesAll mem [20, 10, 30, 40] := by
  have hrun : (buildAll (fun _ _ => True) 20 emptyMem [20, 10, 30, 40]).isSome = true := by
    decide +kernel
  obtain ⟨mem, hmem⟩ := Option.isSome_iff_exists.1 hrun
  have hbuilt := built_of_buildAll (.init _) (by decide) hmem
  refine ⟨mem, (ilRBTreeFree_freesAll tens_totalPreorder hbuilt).1 ?_⟩
  unfold DifferentKeys
  decide

/-- Two equal keys. -/
theorem not_freesAll : ¬ ∀ inserted mem, Built tens compareTens (fun _ _ => True) inserted mem →
    FreesAll mem inserted := by
  intro hclaim
  have hrun : (buildAll (fun _ _ => True) 20 emptyMem [10, 11]).any (fun mem =>
      (mem.node .head).right = .node 10 && (mem.node (.node 10)).left = .node 11 &&
        (mem.node (.node 11)).right = .null) = true := by
    decide +kernel
  generalize hmem : buildAll (fun _ _ => True) 20 emptyMem [10, 11] = result at hrun
  cases result with
  | none => cases hrun
  | some mem =>
    have hbuilt := built_of_buildAll (.init _) (by decide) hmem
    obtain ⟨bound, hfree⟩ := hclaim _ mem hbuilt
    obtain ⟨mem', freed, hfreed, _⟩ := hfree bound (Nat.le_refl _)
    change (_ && _ && _) = true at hrun
    simp only [Bool.and_eq_true, decide_eq_true_eq] at hrun
    obtain ⟨⟨hroot, hleft⟩, hright⟩ := hrun
    have hnot : ∀ fuel freed, freeSubTree mem fuel (.node 11) ≠ some (.ok freed) := by
      intro fuel freed
      cases fuel with
      | zero =>
        intro h
        cases h
      | succ fuel =>
        rw [ne_eq, freeSubTree_ok_iff (by simp), hright]
        rintro ⟨_, right, _, hnull, _⟩
        rw [freeChildren, if_pos (by simp)] at hnull
        cases fuel <;> cases hnull
    have hnotRoot : ∀ freed, freeSubTree mem bound (.node 10) ≠ some (.ok freed) := by
      intro freed
      cases bound with
      | zero =>
        intro h
        cases h
      | succ fuel =>
        rw [ne_eq, freeSubTree_ok_iff (by simp), hleft]
        rintro ⟨left, _, hnode, _⟩
        rw [freeChildren, if_pos (by simp)] at hnode
        exact hnot fuel left hnode
    unfold ilRBTreeFree at hfreed
    rw [hroot, if_pos (by simp)] at hfreed
    cases hsub : freeSubTree mem bound (.node 10) with
    | none => simp [hsub] at hfreed
    | some r =>
      cases r with
      | error e => simp [hsub] at hfreed
      | ok freed => exact hnotRoot freed hsub

end Pnet.Codegen
