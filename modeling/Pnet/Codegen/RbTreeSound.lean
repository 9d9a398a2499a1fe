import Mathlib.Data.List.Perm.Subperm
import Pnet.Codegen.RbTreeRun

/-! Search and enumeration in a tree of `codegen/cg_rbtree.c`. An insertion that finds an
equal key returns before it makes the root black; the tree stays one until a later
insertion splits a node right below that red root. -/
namespace Pnet.Codegen
open Pnet.Lib Pnet.Lib.RedBlack

variable {N K : Type} [DecidableEq N]

/-- The root is red, and the node below it where the key goes is about to be split. -/
def splitsBelowRedRoot (compareFunc : K → N → Int) (mem : Mem N) (key : K) : Bool :=
  let root := (mem.node .head).right
  let child := if compare compareFunc key root < 0 then getLeft mem root else getRight mem root
  (mem.node root).red && ((mem.node (getLeft mem child)).red && (mem.node (getRight mem child)).red)

/-- What a run of insertions of different nodes, each with its own key, leaves; every
insertion of it starts as `ok` says. -/
inductive Built (keyOf : N → K) (compareFunc : K → N → Int) (ok : Mem N → N → Prop) :
    List N → Mem N → Prop
  | init (mem : Mem N) : Built keyOf compareFunc ok [] (ilRBTreeInit mem)
  | insert {inserted : List N} {mem mem' : Mem N} {m : N} {fuel : Nat} :
      Built keyOf compareFunc ok inserted mem → m ∉ inserted → ok mem m →
      ilRBTreeInsert compareFunc fuel mem m (keyOf m) = some mem' →
      Built keyOf compareFunc ok (inserted ++ [m]) mem'

/-- The nodes that `ilRBTreeNext` leads through. -/
def enumerate (mem : Mem N) : Nat → NodePtr N → Option (List (NodePtr N))
  | _, .null => some []
  | 0, _ => none
  | fuel + 1, node => (enumerate mem fuel (ilRBTreeNext mem node)).map (node :: ·)

/-- Balanced, in search order, and every node is found in its turn. -/
structure IsSearchTree (keyOf : N → K) (compareFunc : K → N → Int) (mem : Mem N)
    (inserted : List N) : Prop where
  tree : ∃ t n, ∃ nodes : List N, (links N).Repr mem t ∧
    (mem.node .head).right = (links N).ptr t ∧ RedBlack.Tree.RB t n ∧ t.inorder = nodes.map .node ∧
    nodes.Pairwise fun a b => compareFunc (keyOf a) b < 0
  search : ∀ key, ∃ bound, ∀ fuel, bound ≤ fuel → ∃ found,
    ilRBTreeSearch compareFunc fuel mem key = some found ∧
      found = ((equalNodes compareFunc inserted key).head?.map .node).getD .null ∧
      enumerate mem fuel found = some ((equalNodes compareFunc inserted key).map .node)
  kept : ∀ n ∈ inserted, n ∈ equalNodes compareFunc inserted (keyOf n)

section

variable {le : K → K → Prop} {keyOf : N → K} {compareFunc : K → N → Int} {mem : Mem N}
  {inserted nodes : List N} {t : RedBlack.Tree (NodePtr N)} {total : Nat} {dups : N → List N} {m n : N}

/-! ### Searching -/

theorem searchLoop_eq (mem : Mem N) (key : K) (fuel : Nat) (node : NodePtr N) :
    searchLoop compareFunc mem key (fuel + 1) node =
      if node = .nil then some .null
      else if compare compareFunc key node = 0 then some node
      else searchLoop compareFunc mem key fuel
        ((links N).child mem node (dirOf (compare compareFunc key) node)) := by
  rw [searchLoop]
  unfold dirOf
  by_cases hlt : compare compareFunc key node < 0
  · cases hdup : (mem.node node).duplicate with
    | true => simp [hlt, hdup, links, getLeft]
    | false => simp [hlt, hdup, links, getLeft]
  · simp [hlt, links, getRight]

/-- A search takes one round for each node on its way down. -/
theorem searchLoop_height {key : K} (hordered : Ordered (compare compareFunc key) t.inorder)
    (hrepr : (links N).Repr mem t) (hnil : ∀ p ∈ t.inorder, p ≠ .nil) {fuel : Nat}
    (hfuel : t.height ≤ fuel) :
    searchLoop compareFunc mem key fuel ((links N).ptr t) =
      some ((t.inorder.find? fun p => compare compareFunc key p = 0).getD .null) := by
  induction t generalizing fuel with
  | nil => cases fuel <;> rfl
  | node c p left right ihl ihr =>
    cases fuel with
    | zero => cases hfuel
    | succ fuel =>
      rw [RedBlack.Tree.height] at hfuel
      obtain ⟨_, hleft, hright, hreprl, hreprr⟩ := hrepr
      rw [RedBlack.Tree.inorder] at hordered hnil
      obtain ⟨hol, hor, hcross⟩ := List.pairwise_append.1 hordered
      obtain ⟨hopr, hor⟩ := List.pairwise_cons.1 hor
      have hp : p ≠ .nil := hnil p (by simp)
      have hbelow : compare compareFunc key p ≤ 0 → ∀ q ∈ right.inorder,
          ¬ compare compareFunc key q = 0 := by
        intro hle q hq hzero
        have hlt := hopr q hq hle
        omega
      have habove : 0 ≤ compare compareFunc key p → ∀ q ∈ left.inorder,
          ¬ compare compareFunc key q = 0 := by
        intro hge q hq hzero
        have hlt := hcross q hq p List.mem_cons_self (by omega)
        omega
      rw [searchLoop_eq, Links.ptr, if_neg hp, RedBlack.Tree.inorder, List.find?_append, List.find?_cons]
      by_cases hzero : compare compareFunc key p = 0
      · have hnone : left.inorder.find? (fun q => decide (compare compareFunc key q = 0)) = none := by
          rw [List.find?_eq_none]
          intro q hq
          simpa using habove (by omega) q hq
        simp [hzero, hnone]
      · rw [if_neg hzero]
        by_cases hlt : compare compareFunc key p < 0
        · have hnone : right.inorder.find? (fun q => decide (compare compareFunc key q = 0)) = none := by
            rw [List.find?_eq_none]
            intro q hq
            simpa using hbelow (by omega) q hq
          rw [dirOf, if_pos hlt, hleft, ihl hol hreprl (fun q hq => hnil q (by simp [hq])) (by omega)]
          simp [hzero, hnone]
        · have hnone : left.inorder.find? (fun q => decide (compare compareFunc key q = 0)) = none := by
            rw [List.find?_eq_none]
            intro q hq
            simpa using habove (by omega) q hq
          rw [dirOf, if_neg hlt, hright, ihr hor hreprr (fun q hq => hnil q (by simp [hq])) (by omega)]
          simp [hzero, hnone]

theorem searchLoop_spec {key : K} (hordered : Ordered (compare compareFunc key) t.inorder)
    (hrepr : (links N).Repr mem t) (hnil : ∀ p ∈ t.inorder, p ≠ .nil) {fuel : Nat}
    (hfuel : t.size ≤ fuel) :
    searchLoop compareFunc mem key fuel ((links N).ptr t) =
      some ((t.inorder.find? fun p => compare compareFunc key p = 0).getD .null) :=
  searchLoop_height hordered hrepr hnil (Nat.le_trans t.height_le_size hfuel)

/-! ### Enumerating -/

omit [DecidableEq N] in
theorem enumerate_chained (hchained : Chained mem nodes) {fuel : Nat}
    (hfuel : nodes.length ≤ fuel) :
    enumerate mem fuel ((nodes.head?.map .node).getD .null) = some (nodes.map .node) := by
  induction nodes generalizing fuel with
  | nil => cases fuel <;> rfl
  | cons d rest ih =>
    cases fuel with
    | zero => cases hfuel
    | succ fuel =>
      have hfuel' : rest.length ≤ fuel := Nat.le_of_succ_le_succ hfuel
      have hnext : ilRBTreeNext mem (.node d) = (rest.head?.map .node).getD .null ∧
          Chained mem rest := by
        unfold ilRBTreeNext
        cases rest with
        | nil =>
          obtain ⟨hdup, hcont, _⟩ := hchained
          rw [hdup, hcont]
          exact ⟨rfl, trivial⟩
        | cons e rest =>
          obtain ⟨hdup, hcont, hright, hrest⟩ := hchained
          rw [hdup, hcont, hright]
          exact ⟨rfl, hrest⟩
      change (enumerate mem fuel (ilRBTreeNext mem (.node d))).map _ = _
      rw [hnext.1, ih hnext.2 hfuel']
      rfl

omit [DecidableEq N] in
theorem enumerate_owns (howns : Owns mem n (dups n)) {fuel : Nat}
    (hfuel : (dups n).length < fuel) :
    enumerate mem fuel (.node n) = some ((n :: dups n).map .node) := by
  cases fuel with
  | zero => cases hfuel
  | succ fuel =>
    have hnext : ilRBTreeNext mem (.node n) = ((dups n).head?.map .node).getD .null := by
      unfold ilRBTreeNext
      rw [howns.duplicate, howns.continues]
      cases hds : dups n with
      | nil => rfl
      | cons d rest => exact howns.first d rest hds
    change (enumerate mem fuel (ilRBTreeNext mem (.node n))).map _ = _
    rw [hnext, enumerate_chained howns.chained (Nat.le_of_lt_succ hfuel)]
    rfl

/-! ### After a run -/

theorem Inv.find (hcmp : TotalPreorder le keyOf compareFunc)
    (h : Inv keyOf compareFunc mem inserted t total nodes dups) (key : K) :
    (∃ n ∈ nodes, t.inorder.find? (fun p => compare compareFunc key p = 0) = some (.node n) ∧
      equalNodes compareFunc inserted key = n :: dups n) ∨
    (t.inorder.find? (fun p => compare compareFunc key p = 0) = none ∧
      equalNodes compareFunc inserted key = []) := by
  rw [h.inorder]
  cases hfind : (nodes.map NodePtr.node).find? (fun p => compare compareFunc key p = 0) with
  | some p =>
    have hzero := List.find?_some hfind
    obtain ⟨n, hn, rfl⟩ := List.mem_map.1 (List.mem_of_find?_eq_some hfind)
    rw [decide_eq_true_eq] at hzero
    exact .inl ⟨n, hn, rfl, (equalNodes_congr hcmp hzero).trans (h.equal n hn).symm⟩
  | none =>
    refine .inr ⟨rfl, ?_⟩
    rw [List.find?_eq_none] at hfind
    rw [equalNodes, List.filter_eq_nil_iff]
    intro m hm hzero
    rw [decide_eq_true_eq] at hzero
    obtain ⟨n, hn, hzero'⟩ := h.cover m hm
    refine hfind (.node n) (List.mem_map_of_mem hn) ?_
    rw [decide_eq_true_eq]
    exact (hcmp.congr hzero n).1.2 (hcmp.symm hzero')

theorem Inv.ne_nil (h : Inv keyOf compareFunc mem inserted t total nodes dups) :
    ∀ p ∈ t.inorder, p ≠ .nil := by
  rintro p hp rfl
  rw [h.inorder, List.mem_map] at hp
  obtain ⟨n, _, hn⟩ := hp
  cases hn

theorem Inv.isSearchTree (hcmp : TotalPreorder le keyOf compareFunc)
    (h : Inv keyOf compareFunc mem inserted t total nodes dups) :
    IsSearchTree keyOf compareFunc mem inserted := by
  refine ⟨⟨t, total, nodes, h.focus.tree, h.focus.hole, h.rb, h.inorder, h.sorted⟩, fun key => ?_,
    fun n hn => mem_equalNodes.2 ⟨hn, hcmp.refl n⟩⟩
  have hordered : Ordered (compare compareFunc key) t.inorder :=
    h.inorder ▸ hcmp.ordered h.sorted key
  refine ⟨t.size + (equalNodes compareFunc inserted key).length, fun fuel hfuel => ?_⟩
  have hroot : (mem.node .head).right = (links N).ptr t := h.focus.hole
  have hsearch := searchLoop_spec hordered h.focus.tree h.ne_nil
    (Nat.le_trans (Nat.le_add_right ..) hfuel)
  rw [ilRBTreeSearch, hroot, hsearch]
  refine ⟨_, rfl, ?_⟩
  rcases h.find hcmp key with ⟨n, hn, hfind, hequal⟩ | ⟨hfind, hequal⟩
  · rw [hfind, hequal]
    refine ⟨rfl, enumerate_owns (h.focus.inv.2 n hn) ?_⟩
    rw [hequal, List.length_cons] at hfuel
    omega
  · rw [hfind, hequal]
    refine ⟨rfl, ?_⟩
    cases fuel <;> rfl

theorem inv_init (mem : Mem N) : Inv keyOf compareFunc (ilRBTreeInit mem) [] .nil 0 [] fun _ => [] := by
  have hhead : (ilRBTreeInit mem).node .head = ⟨.null, .nil, false, false, false⟩ := by
    simp [ilRBTreeInit, node_setNode]
  have hnil : (ilRBTreeInit mem).node .nil = ⟨.nil, .nil, false, false, false⟩ := by
    simp [ilRBTreeInit, node_setNode]
  refine ⟨⟨⟨⟨?_, ?_⟩, nofun⟩, ?_, nofun, ?_, ?_, ?_, ?_, trivial, trivial⟩, .nil, fun h => absurd rfl h,
    rfl, .nil, nofun, nofun, .nil⟩
  · rw [hhead]
  · rw [hnil]
  · simp [links, plug, RedBlack.Tree.inorder]
  · exact congrArg ILRBTreeNode.red hnil
  · intro d
    cases d with
    | left => simp [links, getLeft, hnil]
    | right => simp [links, getRight, hnil]
  · exact congrArg ILRBTreeNode.red hhead
  · exact congrArg ILRBTreeNode.right hhead

theorem clear_of_not_splits (h : Inv keyOf compareFunc mem inserted t total nodes dups) {key : K}
    (hok : splitsBelowRedRoot compareFunc mem key = false) :
    Links.Clear (compare compareFunc key) t := by
  intro hred
  have hroot : (mem.node .head).right = (links N).ptr t := h.focus.hole
  obtain ⟨c, p, b, hbranch⟩ := exists_branch_toward (compare compareFunc key)
    (RedBlack.Tree.ne_nil_of_red hred)
  have hptr : (links N).ptr t = p := by
    rw [hbranch, Links.ptr_branch]
  have hfocus := h.focus
  rw [hbranch] at hfocus
  have hchild := (Links.repr_branch.1 hfocus.tree).2.1
  have hcalm := hfocus.down.isSplittable
  have hredRoot : (mem.node p).red = true := by
    have hredPtr := h.focus.tree.red_ptr h.focus.nil_black
    rw [hptr, hred] at hredPtr
    exact hredPtr
  unfold splitsBelowRedRoot at hok
  rw [hroot, hptr] at hok
  rw [← hcalm, ← hchild]
  unfold dirOf at hchild ⊢
  by_cases hlt : compare compareFunc key p < 0
  · simpa [hlt, hredRoot, Links.isSplittable, links] using hok
  · simpa [hlt, hredRoot, Links.isSplittable, links] using hok

theorem lastDuplicate_mono {fuel fuel' : Nat} {p q : NodePtr N}
    (h : lastDuplicate mem fuel p = some q) (hle : fuel ≤ fuel') :
    lastDuplicate mem fuel' p = some q := by
  induction fuel generalizing p fuel' with
  | zero =>
    rw [lastDuplicate] at h
    split at h
    · cases fuel' <;> simp_all [lastDuplicate]
    · cases h
  | succ fuel ih =>
    obtain ⟨fuel', rfl⟩ := Nat.exists_eq_add_of_le' hle
    change (if _ then _ else lastDuplicate mem (fuel' + fuel) _) = _
    rw [lastDuplicate] at h
    split at h
    · rename_i hnull
      rw [if_pos hnull]
      exact h
    · rename_i hnull
      rw [if_neg hnull]
      exact ih h (Nat.le_add_left ..)

/-- More fuel changes no answer. -/
theorem ilRBTreeInsert_mono {fuel fuel' : Nat} {mem' : Mem N} {key : K}
    (h : ilRBTreeInsert compareFunc fuel mem m key = some mem') (hle : fuel ≤ fuel') :
    ilRBTreeInsert compareFunc fuel' mem m key = some mem' := by
  unfold ilRBTreeInsert at h ⊢
  split at h
  · cases h
  · rename_i c hrun
    rw [run_mono hrun hle]
    unfold addDuplicate at h
    change addDuplicate fuel' c.heap c.temp m = some mem'
    unfold addDuplicate
    split at h
    · rename_i hdup
      rw [if_pos hdup]
      split at h
      · rename_i last hlast
        rw [lastDuplicate_mono hlast hle]
        exact h
      · cases h
    · rename_i hdup
      rw [if_neg hdup]
      exact h
  · rename_i c hrun
    rw [run_mono hrun hle]
    exact h

theorem Built.inv (hcmp : TotalPreorder le keyOf compareFunc)
    (h : Built keyOf compareFunc
      (fun mem m => splitsBelowRedRoot compareFunc mem (keyOf m) = false) inserted mem) :
    ∃ t total nodes dups, Inv keyOf compareFunc mem inserted t total nodes dups := by
  induction h with
  | init mem => exact ⟨_, _, _, _, inv_init mem⟩
  | @insert inserted mem mem' m fuel _ hm hok hinsert ih =>
    obtain ⟨t, total, nodes, dups, hinv⟩ := ih
    obtain ⟨bound, mem'', hrun, t', total', nodes', dups', hinv', _⟩ :=
      hinv.insert hcmp hm (clear_of_not_splits hinv hok)
    have hmax := ilRBTreeInsert_mono hinsert (Nat.le_max_left fuel bound)
    rw [hrun _ (Nat.le_max_right fuel bound)] at hmax
    cases hmax
    exact ⟨t', total', nodes', dups', hinv'⟩

/-- As long as no insertion splits a node right below a red root, the tree is balanced and
in search order, a search finds the first of the equal nodes and the others follow it in
turn; and another insertion ends. -/
theorem ilRBTreeInsert_isSearchTree (hcmp : TotalPreorder le keyOf compareFunc)
    (h : Built keyOf compareFunc
      (fun mem m => splitsBelowRedRoot compareFunc mem (keyOf m) = false) inserted mem) :
    IsSearchTree keyOf compareFunc mem inserted ∧
      ∀ m, m ∉ inserted → splitsBelowRedRoot compareFunc mem (keyOf m) = false →
        ∃ bound mem', ∀ fuel, bound ≤ fuel →
          ilRBTreeInsert compareFunc fuel mem m (keyOf m) = some mem' := by
  obtain ⟨t, total, nodes, dups, hinv⟩ := h.inv hcmp
  refine ⟨hinv.isSearchTree hcmp, fun m hm hok => ?_⟩
  obtain ⟨bound, mem', hrun, _⟩ := hinv.insert hcmp hm (clear_of_not_splits hinv hok)
  exact ⟨bound, mem', hrun⟩

/-- Two rounds at most for each doubling of the number of nodes, and one more. -/
theorem ilRBTreeSearch_rounds (hcmp : TotalPreorder le keyOf compareFunc)
    (h : Built keyOf compareFunc
      (fun mem m => splitsBelowRedRoot compareFunc mem (keyOf m) = false) inserted mem) (key : K)
    {fuel : Nat} (hfuel : 2 * Nat.log2 (inserted.length + 1) + 1 ≤ fuel) :
    ilRBTreeSearch compareFunc fuel mem key =
      some (((equalNodes compareFunc inserted key).head?.map .node).getD .null) := by
  obtain ⟨t, total, nodes, dups, hinv⟩ := h.inv hcmp
  have hordered : Ordered (compare compareFunc key) t.inorder :=
    hinv.inorder ▸ hcmp.ordered hinv.sorted key
  have hnodup : nodes.Nodup := hinv.sorted.imp fun {a b} hlt heq => by
    have hself := hcmp.refl b
    rw [heq] at hlt
    omega
  have hsub : nodes.length ≤ inserted.length :=
    (List.Nodup.subperm hnodup fun n hn => (hinv.mem_inserted hn).1).length_le
  have hheight := hinv.rb.height_le_log (m := inserted.length) (by
    rwa [← RedBlack.Tree.length_inorder, hinv.inorder, List.length_map])
  have hroot : (mem.node .head).right = (links N).ptr t := hinv.focus.hole
  rw [ilRBTreeSearch, hroot, searchLoop_height hordered hinv.focus.tree hinv.ne_nil
    (Nat.le_trans hheight hfuel)]
  rcases hinv.find hcmp key with ⟨n, hn, hfind, hequal⟩ | ⟨hfind, hequal⟩
  · rw [hfind, hequal]
    rfl
  · rw [hfind, hequal]
    rfl

end

/-! ### Runs on numbers, where a node is equal to those with the same tens -/

def tens (n : Nat) : Nat := n / 10

def compareTens (key n : Nat) : Int := (key : Int) - (tens n : Nat)

theorem tens_totalPreorder : TotalPreorder (· ≤ ·) tens compareTens := by
  refine ⟨Nat.le_total, Nat.le_trans, fun k n => ?_, fun k n => ?_⟩
  · unfold compareTens
    omega
  · unfold compareTens
    omega

/-- Insert these nodes, if every insertion may start. -/
def buildAll (ok : Mem Nat → Nat → Prop) [∀ mem m, Decidable (ok mem m)] (fuel : Nat) :
    Mem Nat → List Nat → Option (Mem Nat)
  | mem, [] => some mem
  | mem, m :: rest =>
    if ok mem m then
      (ilRBTreeInsert compareTens fuel mem m (tens m)).bind fun mem => buildAll ok fuel mem rest
    else none

theorem built_of_buildAll {ok : Mem Nat → Nat → Prop} [∀ mem m, Decidable (ok mem m)]
    {fuel : Nat} {inserted rest : List Nat} {mem mem' : Mem Nat}
    (h : Built tens compareTens ok inserted mem) (hnodup : (inserted ++ rest).Nodup)
    (hrun : buildAll ok fuel mem rest = some mem') :
    Built tens compareTens ok (inserted ++ rest) mem' := by
  induction rest generalizing inserted mem with
  | nil =>
    cases hrun
    rw [List.append_nil]
    exact h
  | cons m rest ih =>
    rw [buildAll] at hrun
    split at hrun
    · rename_i hok
      obtain ⟨next, hinsert, hrest⟩ := Option.bind_eq_some_iff.1 hrun
      have hm : m ∉ inserted := fun hmem =>
        (List.nodup_append.1 hnodup).2.2 m hmem m List.mem_cons_self rfl
      rw [List.append_cons] at hnodup ⊢
      exact ih (h.insert hm hok hinsert) hnodup hrest
    · cases hrun

def emptyMem : Mem Nat := ilRBTreeInit ⟨fun _ => ⟨.null, .null, false, false, false⟩⟩

/-- Five nodes, three of them with equal keys. -/
theorem ilRBTreeInsert_isSearchTree_five :
    ∃ mem, IsSearchTree tens compareTens mem [20, 10, 30, 11, 12] := by
  let ok (mem : Mem Nat) (m : Nat) : Prop := splitsBelowRedRoot compareTens mem (tens m) = false
  have hrun : (buildAll ok 20 emptyMem [20, 10, 30, 11, 12]).isSome = true := by decide +kernel
  obtain ⟨mem, hmem⟩ := Option.isSome_iff_exists.1 hrun
  have hbuilt := built_of_buildAll (.init _) (by decide) hmem
  exact ⟨mem, (ilRBTreeInsert_isSearchTree tens_totalPreorder hbuilt).1⟩

/-- Five rounds find the first of three equal nodes, of five. -/
theorem ilRBTreeSearch_rounds_five :
    ∃ mem, ilRBTreeSearch compareTens 5 mem 1 = some (.node 10) := by
  let ok (mem : Mem Nat) (m : Nat) : Prop := splitsBelowRedRoot compareTens mem (tens m) = false
  have hrun : (buildAll ok 20 emptyMem [20, 10, 30, 11, 12]).isSome = true := by decide +kernel
  obtain ⟨mem, hmem⟩ := Option.isSome_iff_exists.1 hrun
  have hbuilt := built_of_buildAll (.init _) (by decide) hmem
  exact ⟨mem, ilRBTreeSearch_rounds tens_totalPreorder hbuilt 1 (by decide)⟩

/-- Nodes 50 and 90 are both red, one right below the other. -/
def redBelowRed (mem : Mem Nat) : Bool :=
  (mem.node .head).right = .node 30 && (mem.node (.node 30)).right = .node 50 &&
    (mem.node (.node 50)).right = .node 90 && (mem.node (.node 50)).red &&
    (mem.node (.node 90)).red

theorem exists_node_of_ptr {t : RedBlack.Tree (NodePtr Nat)} {mem : Mem Nat} {n : Nat}
    (hrepr : (links Nat).Repr mem t) (hptr : (links Nat).ptr t = .node n) :
    ∃ left right, t = .node (mem.node (.node n)).red (.node n) left right ∧
      (mem.node (.node n)).right = (links Nat).ptr right ∧ (links Nat).Repr mem right := by
  cases t with
  | nil => cases hptr
  | node c p left right =>
    obtain rfl : p = .node n := hptr
    obtain ⟨hred, _, hright, _, hrepr⟩ := hrepr
    exact ⟨left, right, hred ▸ rfl, hright, hrepr⟩

theorem not_isSearchTree_of_redBelowRed {mem : Mem Nat} {inserted : List Nat}
    (h : redBelowRed mem = true) : ¬ IsSearchTree tens compareTens mem inserted := by
  intro htree
  obtain ⟨t, n, _, hrepr, hroot, hrb, _⟩ := htree.tree
  simp only [redBelowRed, Bool.and_eq_true, decide_eq_true_eq] at h
  obtain ⟨⟨⟨⟨h30, h50⟩, h90⟩, hred50⟩, hred90⟩ := h
  obtain ⟨_, right, rfl, hright, hrepr⟩ := exists_node_of_ptr hrepr (hroot.symm.trans h30)
  obtain ⟨_, right', rfl, hright', hrepr⟩ := exists_node_of_ptr hrepr (hright.symm.trans h50)
  obtain ⟨_, _, rfl, _⟩ := exists_node_of_ptr hrepr (hright'.symm.trans h90)
  obtain ⟨_, _, _, hrb, _⟩ := RedBlack.Tree.rb_branch (d := .left) |>.1 hrb
  have hblack := hrb.sub_black hred50 .right
  rw [show _ = (mem.node (.node 90)).red from rfl, hred90] at hblack
  cases hblack

/-- Fifteen insertions, two of them of equal keys. -/
theorem not_isSearchTree : ¬ ∀ inserted mem, Built tens compareTens (fun _ _ => True) inserted mem →
    IsSearchTree tens compareTens mem inserted := by
  intro hclaim
  have hrun : (buildAll (fun _ _ => True) 20 emptyMem
      [130, 90, 80, 50, 40, 30, 20, 70, 60, 120, 110, 100, 21, 61, 10]).any redBelowRed = true := by
    decide +kernel
  generalize hmem : buildAll (fun _ _ => True) 20 emptyMem
    [130, 90, 80, 50, 40, 30, 20, 70, 60, 120, 110, 100, 21, 61, 10] = result at hrun
  cases result with
  | none => cases hrun
  | some mem =>
    have hbuilt := built_of_buildAll (.init _) (by decide) hmem
    exact not_isSearchTree_of_redBelowRed hrun (hclaim _ mem hbuilt)

end Pnet.Codegen
