import Pnet.Codegen.RbTreeInsert

/-! What holds of a tree of `codegen/cg_rbtree.c` after a run of insertions. -/
namespace Pnet.Codegen
open Pnet.Lib Pnet.Lib.RedBlack

variable {N K : Type}

/-- The nodes with an equal key, in the order of insertion. -/
def equalNodes (compareFunc : K → N → Int) (inserted : List N) (key : K) : List N :=
  inserted.filter fun n => compareFunc key n = 0

variable [DecidableEq N]

/-- `t` is the tree in the memory, with the nodes `nodes`; the others are their duplicates. -/
structure Inv (keyOf : N → K) (compareFunc : K → N → Int) (mem : Mem N) (inserted : List N)
    (t : RedBlack.Tree (NodePtr N)) (total : Nat) (nodes : List N) (dups : N → List N) : Prop where
  focus : (links N).Focus (InTree nodes) (DupsInv nodes dups) mem [] t
  rb : RedBlack.Tree.RB t total
  root : t ≠ .nil → 0 < total
  inorder : t.inorder = nodes.map .node
  sorted : nodes.Pairwise fun a b => compareFunc (keyOf a) b < 0
  equal : ∀ n ∈ nodes, n :: dups n = equalNodes compareFunc inserted (keyOf n)
  cover : ∀ m ∈ inserted, ∃ n ∈ nodes, compareFunc (keyOf n) m = 0
  nodup : inserted.Nodup

section

variable {le : K → K → Prop} {keyOf : N → K} {compareFunc : K → N → Int} {mem : Mem N}
  {inserted nodes : List N} {t : RedBlack.Tree (NodePtr N)} {total : Nat} {dups : N → List N} {m n : N}

omit [DecidableEq N] in
theorem mem_equalNodes {key : K} :
    n ∈ equalNodes compareFunc inserted key ↔ n ∈ inserted ∧ compareFunc key n = 0 := by
  simp [equalNodes]

omit [DecidableEq N] in
theorem equalNodes_concat (key : K) : equalNodes compareFunc (inserted ++ [m]) key =
    equalNodes compareFunc inserted key ++ if compareFunc key m = 0 then [m] else [] := by
  unfold equalNodes
  rw [List.filter_append]
  by_cases h : compareFunc key m = 0
  · simp [h]
  · simp [h]

omit [DecidableEq N] in
theorem equalNodes_congr (hcmp : TotalPreorder le keyOf compareFunc) {key : K}
    (hzero : compareFunc key n = 0) :
    equalNodes compareFunc inserted key = equalNodes compareFunc inserted (keyOf n) := by
  unfold equalNodes
  congr 1
  funext m
  simp only [(hcmp.congr hzero m).1]

/-- Nodes of the tree with equal keys are one node. -/
theorem eq_of_equal (hcmp : TotalPreorder le keyOf compareFunc)
    (hsorted : nodes.Pairwise fun a b => compareFunc (keyOf a) b < 0) {a b : N} (ha : a ∈ nodes)
    (hb : b ∈ nodes) (hzero : compareFunc (keyOf a) b = 0) : a = b := by
  by_contra hne
  have hlt : compareFunc (keyOf a) b < 0 ∨ compareFunc (keyOf b) a < 0 := by
    obtain ⟨i, hi, rfl⟩ := List.mem_iff_getElem.1 ha
    obtain ⟨j, hj, rfl⟩ := List.mem_iff_getElem.1 hb
    rw [List.pairwise_iff_getElem] at hsorted
    rcases Nat.lt_trichotomy i j with hij | hij | hij
    · exact .inl (hsorted i j hi hj hij)
    · subst hij
      exact absurd rfl hne
    · exact .inr (hsorted j i hj hi hij)
  rcases hlt with hlt | hlt
  · omega
  · have hsymm := hcmp.symm hzero
    omega

namespace Inv

theorem mem_inserted (h : Inv keyOf compareFunc mem inserted t total nodes dups) (hn : n ∈ nodes) :
    n ∈ inserted ∧ ∀ d ∈ dups n, d ∈ inserted ∧ compareFunc (keyOf n) d = 0 := by
  have hequal := h.equal n hn
  constructor
  · have hmem : n ∈ equalNodes compareFunc inserted (keyOf n) := hequal ▸ List.mem_cons_self
    exact (mem_equalNodes.1 hmem).1
  · intro d hd
    have hmem : d ∈ equalNodes compareFunc inserted (keyOf n) :=
      hequal ▸ List.mem_cons_of_mem _ hd
    exact mem_equalNodes.1 hmem

theorem dups_nodup (h : Inv keyOf compareFunc mem inserted t total nodes dups) (hn : n ∈ nodes) :
    (n :: dups n).Nodup := by
  rw [h.equal n hn]
  exact h.nodup.filter _

theorem apart (hcmp : TotalPreorder le keyOf compareFunc)
    (h : Inv keyOf compareFunc mem inserted t total nodes dups) : Apart nodes dups := by
  constructor
  · intro n hn d hd hmem
    obtain rfl := eq_of_equal hcmp h.sorted hn hmem ((h.mem_inserted hn).2 d hd).2
    exact (List.nodup_cons.1 (h.dups_nodup hn)).1 hd
  · intro n hn n' hn' d hd hd'
    have hzero := ((h.mem_inserted hn).2 d hd).2
    have hzero' := hcmp.symm ((h.mem_inserted hn').2 d hd').2
    exact eq_of_equal hcmp h.sorted hn hn' ((hcmp.congr hzero n').1.2 hzero')

theorem fresh (h : Inv keyOf compareFunc mem inserted t total nodes dups) (hm : m ∉ inserted) :
    Fresh nodes dups m :=
  ⟨fun hmem => hm (h.mem_inserted hmem).1, fun _ hn hmem => hm ((h.mem_inserted hn).2 m hmem).1⟩

/-- The new node is equal to a node of the tree. -/
theorem duplicate (hcmp : TotalPreorder le keyOf compareFunc)
    (h : Inv keyOf compareFunc mem inserted t total nodes dups) (hm : m ∉ inserted)
    (hn : n ∈ nodes) (hzero : compareFunc (keyOf m) n = 0) {mem' : Mem N}
    {t' : RedBlack.Tree (NodePtr N)} (hrb : RedBlack.Tree.RB t' total) (hinorder : t'.inorder = t.inorder)
    (hfocus : (links N).Focus (InTree nodes)
      (DupsInv nodes (Function.update dups n (dups n ++ [m]))) mem' [] t') :
    Inv keyOf compareFunc mem' (inserted ++ [m]) t' total nodes
      (Function.update dups n (dups n ++ [m])) := by
  refine ⟨hfocus, hrb, fun hne => h.root ?_, hinorder.trans h.inorder, h.sorted, ?_, ?_, ?_⟩
  · rintro rfl
    cases t' with
    | nil => exact hne rfl
    | node c p left right => simp [RedBlack.Tree.inorder] at hinorder
  · intro n' hn'
    rw [equalNodes_concat, ← h.equal n' hn']
    by_cases heq : n' = n
    · subst heq
      rw [Function.update_self, if_pos (hcmp.symm hzero)]
      rfl
    · rw [Function.update_of_ne heq, if_neg, List.append_nil]
      intro hzero'
      exact heq (eq_of_equal hcmp h.sorted hn' hn ((hcmp.congr hzero' n).1.2 hzero))
  · intro m' hm'
    rcases List.mem_append.1 hm' with hm' | hm'
    · exact h.cover m' hm'
    · obtain rfl := List.mem_singleton.1 hm'
      exact ⟨n, hn, hcmp.symm hzero⟩
  · exact List.nodup_append.2 ⟨h.nodup, List.nodup_singleton m,
      fun a ha b hb heq => hm (List.mem_singleton.1 hb ▸ heq ▸ ha)⟩

/-- The new node gets a place of its own. -/
theorem extend (hcmp : TotalPreorder le keyOf compareFunc) {pre post : List N}
    (h : Inv keyOf compareFunc mem inserted t total (pre ++ post) dups) (hm : m ∉ inserted)
    (hpre : ∀ n ∈ pre, 0 < compareFunc (keyOf m) n) (hpost : ∀ n ∈ post, compareFunc (keyOf m) n < 0)
    {mem' : Mem N} {t' : RedBlack.Tree (NodePtr N)} {k : Nat} (hrb : RedBlack.Tree.RB t' k) (hblack : t'.red = false)
    (hinorder : t'.inorder = (pre ++ m :: post).map .node)
    (hfocus : (links N).Focus (InTree (pre ++ m :: post))
      (DupsInv (pre ++ m :: post) (Function.update dups m [])) mem' [] t') :
    Inv keyOf compareFunc mem' (inserted ++ [m]) t' k (pre ++ m :: post)
      (Function.update dups m []) := by
  have hmem : ∀ n, n ∈ pre ++ m :: post ↔ n = m ∨ n ∈ pre ++ post := by
    intro n
    simp only [List.mem_append, List.mem_cons]
    tauto
  have hne : ∀ n ∈ pre ++ post, compareFunc (keyOf m) n ≠ 0 := by
    intro n hn
    rcases List.mem_append.1 hn with hn | hn
    · have hpos := hpre n hn
      omega
    · have hneg := hpost n hn
      omega
  refine ⟨hfocus, hrb, fun hne' => ?_, hinorder, ?_, ?_, ?_, ?_⟩
  · cases hrb with
    | nil => exact absurd rfl hne'
    | red _ _ _ _ => cases hblack
    | black _ _ => exact Nat.succ_pos _
  · obtain ⟨hsortedPre, hsortedPost, hcross⟩ := List.pairwise_append.1 h.sorted
    refine List.pairwise_append.2 ⟨hsortedPre, List.pairwise_cons.2 ⟨hpost, hsortedPost⟩, ?_⟩
    intro a ha b hb
    rcases List.mem_cons.1 hb with rfl | hb
    · exact (hcmp.neg _ _).2 ((hcmp.pos _ _).1 (hpre a ha))
    · exact hcross a ha b hb
  · intro n hn
    rw [equalNodes_concat]
    rcases (hmem n).1 hn with rfl | hn
    · have hnone : equalNodes compareFunc inserted (keyOf n) = [] := by
        rw [equalNodes, List.filter_eq_nil_iff]
        intro x hx hzero
        rw [decide_eq_true_eq] at hzero
        obtain ⟨n', hn', hzero'⟩ := h.cover x hx
        exact hne n' hn' ((hcmp.congr hzero n').1.2 (hcmp.symm hzero'))
      rw [hnone, if_pos (hcmp.refl n), Function.update_self]
      rfl
    · have hnm : n ≠ m := fun heq => hm (heq ▸ (h.mem_inserted hn).1)
      rw [Function.update_of_ne hnm, h.equal n hn, if_neg, List.append_nil]
      exact fun hzero => hne n hn (hcmp.symm hzero)
  · intro m' hm'
    rcases List.mem_append.1 hm' with hm' | hm'
    · obtain ⟨n, hn, hzero⟩ := h.cover m' hm'
      exact ⟨n, (hmem n).2 (.inr hn), hzero⟩
    · obtain rfl := List.mem_singleton.1 hm'
      exact ⟨m', (hmem m').2 (.inl rfl), hcmp.refl m'⟩
  · exact List.nodup_append.2 ⟨h.nodup, List.nodup_singleton m,
      fun a ha b hb heq => hm (List.mem_singleton.1 hb ▸ heq ▸ ha)⟩

end Inv

/-! ### One insertion -/

theorem apart_newNode {pre post : List N} (h : Apart (pre ++ post) dups)
    (hm : Fresh (pre ++ post) dups m) : Apart (pre ++ m :: post) (Function.update dups m []) := by
  have hold : ∀ n ∈ pre ++ m :: post, ∀ d ∈ Function.update dups m [] n,
      n ∈ pre ++ post ∧ d ∈ dups n := by
    intro n hn d hd
    by_cases hnm : n = m
    · rw [hnm, Function.update_self] at hd
      cases hd
    · rw [Function.update_of_ne hnm] at hd
      simp only [List.mem_append, List.mem_cons, hnm, false_or] at hn
      exact ⟨List.mem_append.2 hn, hd⟩
  constructor
  · intro n hn d hd hmem
    obtain ⟨hn', hd'⟩ := hold n hn d hd
    simp only [List.mem_append, List.mem_cons] at hmem
    have hdm : d ≠ m := fun heq => hm.chain n hn' (heq ▸ hd')
    exact h.notMem n hn' d hd' (List.mem_append.2 (by tauto))
  · intro n hn n' hn' d hd hd'
    exact h.owner n (hold n hn d hd).1 n' (hold n' hn' d hd').1 d (hold n hn d hd).2
      (hold n' hn' d hd').2

/-- The memory of a new leaf is set up. -/
theorem focus_newNode {ctx : List (Frame (NodePtr N))} {pre post : List N}
    (hapart : Apart (pre ++ post) dups)
    (hf : (links N).Focus (InTree (pre ++ post)) (DupsInv (pre ++ post) dups) mem ctx .nil)
    (hm : Fresh (pre ++ post) dups m) :
    (links N).Focus (InTree (pre ++ m :: post)) (DupsInv (pre ++ m :: post) (Function.update dups m []))
      (setNode mem (.node m) ⟨.nil, .nil, true, false, false⟩) ctx .nil := by
  have hmem : ∀ n, n ∈ pre ++ m :: post ↔ n = m ∨ n ∈ pre ++ post := by
    intro n
    simp only [List.mem_append, List.mem_cons]
    tauto
  have hother : ∀ q, q ≠ .node m →
      (setNode mem (.node m) ⟨.nil, .nil, true, false, false⟩).node q = mem.node q := by
    intro q hq
    rw [node_setNode, if_neg hq]
  have hnew : (setNode mem (.node m) ⟨.nil, .nil, true, false, false⟩).node (.node m) =
      ⟨.nil, .nil, true, false, false⟩ := by
    rw [node_setNode, if_pos rfl]
  have hdups : ∀ n ∈ pre ++ post, ∀ d ∈ dups n, NodePtr.node d ≠ .node m := by
    intro n hn d hd heq
    cases heq
    exact hm.chain n hn hd
  generalize setNode mem (.node m) ⟨.nil, .nil, true, false, false⟩ = mem' at hother hnew ⊢
  refine hf.congr ⟨⟨?_, ?_⟩, fun n hn => ?_⟩ ?_ fun q hq => ?_
  · rw [hother _ (by simp)]
    exact hf.inv.1.1
  · rw [hother _ (by simp)]
    exact hf.inv.1.2
  · rcases (hmem n).1 hn with rfl | hn
    · rw [Function.update_self]
      exact ⟨by rw [hnew]; rfl, by rw [hnew], fun _ _ hd => (List.cons_ne_nil _ _ hd.symm).elim, trivial⟩
    · have hnm : n ≠ m := fun heq => hm.tree (heq ▸ hn)
      rw [Function.update_of_ne hnm]
      refine owns_of_same hf.inv hn ?_
      rintro q (rfl | ⟨d, hd, rfl⟩)
      · exact hother _ (by simpa using hnm)
      · exact hother _ (hdups n hn d hd)
  · rintro q (rfl | rfl | ⟨n, hn, rfl⟩)
    · exact .inl rfl
    · exact .inr (.inl rfl)
    · exact .inr (.inr ⟨n, (hmem n).2 (.inr hn), rfl⟩)
  · have hq' : InTree (pre ++ post) q := by
      simp only [List.mem_cons, RedBlack.Tree.inorder, List.append_nil] at hq
      obtain rfl | rfl | hq := hq
      · exact .inl rfl
      · exact .inr (.inl rfl)
      · exact hf.mem_frames (List.mem_append_left _ hq)
    have hqm : q ≠ .node m := fun heq => hm.not_inTree (heq ▸ hq')
    have hnode := hother q hqm
    refine ⟨congrArg ILRBTreeNode.red hnode, fun e => ?_⟩
    cases e with
    | left =>
      change getLeft mem' q = getLeft mem q
      rw [getLeft_eq, getLeft_eq, slot, slot, hnode]
      split
      · rcases slot_cases hf.inv hq' with ⟨_, hno⟩ | ⟨n, hn, d, hd, _, _, hleft, _⟩
        · simp_all
        · rw [hleft, hother _ (hdups n hn d hd)]
      · rw [hnode]
    | right => simp [links, getRight, hnode]

/-- One insertion, where the root is not both red and above a node that is split. -/
theorem Inv.insert (hcmp : TotalPreorder le keyOf compareFunc)
    (h : Inv keyOf compareFunc mem inserted t total nodes dups) (hm : m ∉ inserted)
    (hclear : Links.Clear (compare compareFunc (keyOf m)) t) :
    ∃ bound mem', (∀ fuel, bound ≤ fuel →
        ilRBTreeInsert compareFunc fuel mem m (keyOf m) = some mem') ∧
      ∃ t' total' nodes' dups',
        Inv keyOf compareFunc mem' (inserted ++ [m]) t' total' nodes' dups' ∧
          (t'.red = false ∨ ∃ n ∈ inserted, compareFunc (keyOf m) n = 0) := by
  have hapart := h.apart hcmp
  have hordered : Ordered (compare compareFunc (keyOf m)) t.inorder :=
    h.inorder ▸ hcmp.ordered h.sorted (keyOf m)
  have hhead : 0 < compare compareFunc (keyOf m) (links N).head := Int.one_pos
  obtain ⟨bound, r, hrun, hout⟩ := Links.start_finishes (lawful hapart) hhead h.focus h.rb h.root
    hordered hclear
  have hinsert : ∀ fuel, bound ≤ fuel → run (fun c => decide (c.temp = .nil))
      (insertStep compareFunc (keyOf m)) fuel ⟨mem, .head, .head, .head, .head⟩ = some r := by
    intro fuel hle
    have hstep : insertStep compareFunc (keyOf m) =
        (links N).step (compare compareFunc (keyOf m)) := funext (insertStep_eq compareFunc _)
    rw [hstep]
    exact run_mono hrun hle
  cases r with
  | error cur =>
    obtain ⟨ctx, t', hfocus, hsound, hinorder, htemp, hzero⟩ := hout
    have hmem : cur.temp ∈ (plug ctx t').inorder := by
      rw [inorder_plug]
      exact List.mem_append_left _ (List.mem_append_right _ htemp)
    rw [hinorder, h.inorder] at hmem
    obtain ⟨n, hn, hnode⟩ := List.mem_map.1 hmem
    rw [← hnode] at hzero
    obtain ⟨mem', hadd, hfocus'⟩ := addDuplicate_spec hapart hfocus.to_root
      (hinorder.trans h.inorder) hn (h.fresh hm) (List.nodup_cons.1 (h.dups_nodup hn)).2
    refine ⟨max bound (dups n).length, mem', fun fuel hle => ?_, plug ctx t', total, nodes, _,
      h.duplicate hcmp hm hn hzero (sound_plug.1 hsound) hinorder hfocus',
      .inr ⟨n, (h.mem_inserted hn).1, hzero⟩⟩
    rw [ilRBTreeInsert, hinsert fuel (Nat.le_trans (Nat.le_max_left ..) hle)]
    change addDuplicate fuel cur.heap cur.temp m = some mem'
    rw [← hnode]
    exact hadd fuel (Nat.le_trans (Nat.le_max_right ..) hle)
  | ok cur =>
    obtain ⟨ctx, hplace, hknows, hgreat, hmend⟩ := hout
    have hnodes := hplace.inorder
    rw [inorder_plug, RedBlack.Tree.inorder, List.append_nil, h.inorder] at hnodes
    obtain ⟨pre, post, rfl, hpre, hpost⟩ := List.map_eq_append_iff.1 hnodes.symm
    have hbefore : ∀ n ∈ pre, 0 < compareFunc (keyOf m) n := fun n hn =>
      hplace.between.1 (.node n) (hpre ▸ List.mem_map_of_mem hn)
    have hafter : ∀ n ∈ post, compareFunc (keyOf m) n < 0 := fun n hn =>
      hplace.between.2 (.node n) (hpost ▸ List.mem_map_of_mem hn)
    have hfocus := focus_newNode hapart hplace.focus (h.fresh hm)
    have hfresh : (NodePtr.node m) ∉ (links N).head :: (links N).nil :: Links.frameNodes ctx := by
      intro hmem
      simp only [List.mem_cons, links, reduceCtorEq, false_or] at hmem
      exact (h.fresh hm).not_inTree (hplace.focus.mem_frames (List.mem_append_left _ hmem))
    have hinorder' : (plug ctx (.nil : RedBlack.Tree (NodePtr N))).inorder =
        (pre ++ post).map .node := hplace.inorder.trans h.inorder
    have hplace' : (links N).Place _ _ (compare compareFunc (keyOf m)) total
        ((pre ++ post).map .node)
        { cur with heap := setNode cur.heap (.node m) ⟨.nil, .nil, true, false, false⟩ } ctx .nil :=
      ⟨hfocus, hplace.sound, hinorder', hplace.path, hplace.between, hplace.temp⟩
    have hnew : (setNode cur.heap (.node m) ⟨.nil, .nil, true, false, false⟩).node (.node m) =
        ⟨.nil, .nil, true, false, false⟩ := by
      rw [node_setNode, if_pos rfl]
    have hmTree : InTree (pre ++ m :: post) (.node m) := .inr (.inr ⟨m, by simp, rfl⟩)
    have hred : (links N).red (setNode cur.heap (.node m) ⟨.nil, .nil, true, false, false⟩)
        (.node m) = true := congrArg ILRBTreeNode.red hnew
    have hchild : ∀ e, (links N).child (setNode cur.heap (.node m) ⟨.nil, .nil, true, false, false⟩)
        (.node m) e = .nil := by
      intro e
      cases e with
      | left => simp [links, getLeft, hnew]
      | right => simp [links, getRight, hnew]
    have hapart' := apart_newNode hapart (h.fresh hm)
    obtain ⟨t', k, hroot, hrb, hblack, hin⟩ := Links.finish_spec (lawful hapart') hhead hplace'
      ⟨hknows.parent, hknows.grandParent⟩ hgreat hmend
      hmTree hfresh hred hchild
    refine ⟨bound, addNode compareFunc (keyOf m) cur m, fun fuel hle => ?_, t', k,
      pre ++ m :: post, Function.update dups m [],
      h.extend hcmp hm hbefore hafter hrb hblack ?_ ?_, .inl hblack⟩
    · rw [ilRBTreeInsert, hinsert fuel hle]
    · rw [hin, ← hpre, ← hpost]
      simp
    · rw [addNode_eq]
      exact hroot

end

end Pnet.Codegen
