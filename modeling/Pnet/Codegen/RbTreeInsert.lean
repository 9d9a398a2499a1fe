import Pnet.Codegen.RbTree

/-! Insertion into a tree of `codegen/cg_rbtree.c`: a new key gets a node of the tree, an
equal one a place at the end of a chain. -/
namespace Pnet.Codegen
open Pnet.Lib Pnet.Lib.RedBlack

variable {N K : Type}

/-- The comparison function orders keys, as far as it can tell them apart. -/
structure TotalPreorder (le : K → K → Prop) (keyOf : N → K) (compareFunc : K → N → Int) : Prop where
  total : ∀ a b, le a b ∨ le b a
  trans : ∀ {a b c}, le a b → le b c → le a c
  neg : ∀ k n, compareFunc k n < 0 ↔ ¬ le (keyOf n) k
  pos : ∀ k n, 0 < compareFunc k n ↔ ¬ le k (keyOf n)

section Order

variable {le : K → K → Prop} {keyOf : N → K} {compareFunc : K → N → Int} {k : K} {a b : N}

namespace TotalPreorder

theorem zero (h : TotalPreorder le keyOf compareFunc) :
    compareFunc k a = 0 ↔ le k (keyOf a) ∧ le (keyOf a) k := by
  have hneg := h.neg k a
  have hpos := h.pos k a
  constructor
  · intro hzero
    rw [hzero] at hneg hpos
    constructor
    · by_contra hle
      exact absurd (hpos.2 hle) (Int.lt_irrefl 0)
    · by_contra hle
      exact absurd (hneg.2 hle) (Int.lt_irrefl 0)
  · intro hboth
    have h₁ : ¬ compareFunc k a < 0 := fun hlt => hneg.1 hlt hboth.2
    have h₂ : ¬ 0 < compareFunc k a := fun hlt => hpos.1 hlt hboth.1
    omega

theorem refl (h : TotalPreorder le keyOf compareFunc) (a : N) : compareFunc (keyOf a) a = 0 := by
  have hle : le (keyOf a) (keyOf a) := (h.total _ _).elim id id
  exact h.zero.2 ⟨hle, hle⟩

/-- Two keys that are equal to the tree compare alike. -/
theorem congr (h : TotalPreorder le keyOf compareFunc) (hzero : compareFunc k a = 0) (b : N) :
    (compareFunc k b = 0 ↔ compareFunc (keyOf a) b = 0) ∧
      (compareFunc k b < 0 ↔ compareFunc (keyOf a) b < 0) := by
  obtain ⟨hka, hak⟩ := h.zero.1 hzero
  have hleft : le (keyOf b) k ↔ le (keyOf b) (keyOf a) :=
    ⟨fun hle => h.trans hle hka, fun hle => h.trans hle hak⟩
  have hright : le k (keyOf b) ↔ le (keyOf a) (keyOf b) :=
    ⟨fun hle => h.trans hak hle, fun hle => h.trans hka hle⟩
  exact ⟨by rw [h.zero, h.zero, hleft, hright], by rw [h.neg, h.neg, hleft]⟩

theorem symm (h : TotalPreorder le keyOf compareFunc) (hzero : compareFunc (keyOf a) b = 0) :
    compareFunc (keyOf b) a = 0 :=
  h.zero.2 ⟨(h.zero.1 hzero).2, (h.zero.1 hzero).1⟩

/-- What a key sees of nodes in strict order. -/
theorem ordered (h : TotalPreorder le keyOf compareFunc) {nodes : List N}
    (hsorted : nodes.Pairwise fun a b => compareFunc (keyOf a) b < 0) (key : K) :
    Ordered (compare compareFunc key) (nodes.map .node) := by
  unfold Ordered
  rw [List.pairwise_map]
  refine hsorted.imp fun {a b} hlt hle => ?_
  rw [compare, h.neg]
  intro hbk
  have hka : le key (keyOf a) := by
    by_contra hnot
    exact absurd hle (by rw [compare]; have := (h.pos key a).2 hnot; omega)
  exact (h.neg _ _).1 hlt (h.trans hbk hka)

end TotalPreorder

end Order

variable [DecidableEq N] {mem : Mem N} {nodes : List N} {dups : N → List N} {m n : N}

/-! ### At the end of a chain -/

/-- `m` is hung after the last duplicate. -/
def linkAfter (mem : Mem N) (last m : N) : Mem N :=
  let mem := setNode mem (.node last)
    { mem.node (.node last) with right := .node m, continues := true }
  setNode mem (.node m) ⟨.null, .null, false, false, false⟩

theorem node_linkAfter (mem : Mem N) (last m : N) (q : NodePtr N) :
    (linkAfter mem last m).node q =
      if q = .node m then ⟨.null, .null, false, false, false⟩
      else if q = .node last then
        { mem.node (.node last) with right := .node m, continues := true }
      else mem.node q := by
  simp only [linkAfter, node_setNode]

theorem chained_linkAfter {init : List N} {last : N} (h : Chained mem (init ++ [last]))
    (hnodup : (init ++ [last]).Nodup) (hm : m ∉ init ++ [last]) :
    Chained (linkAfter mem last m) (init ++ [last] ++ [m]) := by
  have hnew : (linkAfter mem last m).node (.node m) = ⟨.null, .null, false, false, false⟩ := by
    rw [node_linkAfter, if_pos rfl]
  have hlast : last ≠ m := fun heq => hm (by simp [heq])
  induction init with
  | nil =>
    have hnode := node_linkAfter mem last m (.node last)
    rw [if_neg (by simpa using hlast), if_pos rfl] at hnode
    refine ⟨?_, ?_, ?_, ?_, ?_, ?_⟩
    · rw [hnode]
      exact h.1
    · rw [hnode]
    · rw [hnode]
    · rw [hnew]
    · rw [hnew]
    · rw [hnew]
  | cons d init ih =>
    rw [List.cons_append, List.nodup_cons, List.mem_append, List.mem_singleton, not_or] at hnodup
    obtain ⟨hd, hnodup⟩ := hnodup
    have hnode := node_linkAfter mem last m (.node d)
    rw [if_neg (by simpa using fun heq : d = m => hm (by simp [heq])),
      if_neg (by simpa using hd.2)] at hnode
    cases init with
    | nil =>
      obtain ⟨hdup, hcont, hright, hrest⟩ := h
      rw [← hnode] at hdup hcont hright
      exact ⟨hdup, hcont, hright, ih hrest hnodup fun hmem => hm (List.mem_cons_of_mem _ hmem)⟩
    | cons e init =>
      obtain ⟨hdup, hcont, hright, hrest⟩ := h
      rw [← hnode] at hdup hcont hright
      exact ⟨hdup, hcont, hright, ih hrest hnodup fun hmem => hm (List.mem_cons_of_mem _ hmem)⟩

theorem lastDuplicate_spec {init : List N} {last d : N} {rest : List N}
    (hsplit : init ++ [last] = d :: rest) (h : Chained mem (d :: rest)) {fuel : Nat}
    (hfuel : rest.length ≤ fuel) : lastDuplicate mem fuel (.node d) = some (.node last) := by
  induction rest generalizing init d fuel with
  | nil =>
    obtain ⟨rfl, hlast⟩ := List.append_eq_singleton_iff.1 hsplit |>.resolve_right (by simp)
    cases hlast
    cases fuel with
    | zero => simp [lastDuplicate, h.2.2]
    | succ fuel => simp [lastDuplicate, h.2.2]
  | cons e rest ih =>
    obtain ⟨_, _, hright, hrest⟩ := h
    cases fuel with
    | zero => cases hfuel
    | succ fuel =>
      cases init with
      | nil => simp at hsplit
      | cons d' init =>
        obtain ⟨rfl, htail⟩ := List.cons.inj hsplit
        rw [lastDuplicate, hright, if_neg (by simp)]
        exact ih htail hrest (Nat.le_of_succ_le_succ hfuel)

/-- The first duplicate of a node takes over its left subtree. -/
def linkFirst (mem : Mem N) (n m : N) : Mem N :=
  let left := (mem.node (.node n)).left
  let mem := setNode mem (.node n) { mem.node (.node n) with left := .node m, duplicate := true }
  setNode mem (.node m) ⟨left, .null, false, false, false⟩

theorem node_linkFirst (mem : Mem N) (n m : N) (q : NodePtr N) :
    (linkFirst mem n m).node q =
      if q = .node m then ⟨(mem.node (.node n)).left, .null, false, false, false⟩
      else if q = .node n then { mem.node (.node n) with left := .node m, duplicate := true }
      else mem.node q := by
  simp only [linkFirst, node_setNode]

section Focus

variable {t : RedBlack.Tree (NodePtr N)} {total : Nat}

/-- A node that is neither in the tree nor in a chain. -/
structure Fresh (nodes : List N) (dups : N → List N) (m : N) : Prop where
  tree : m ∉ nodes
  chain : ∀ n ∈ nodes, m ∉ dups n

omit [DecidableEq N] in
theorem Fresh.not_inTree (hm : Fresh nodes dups m) : ¬ InTree nodes (.node m) := by
  rintro (h | h | ⟨n', hn', h⟩)
  · cases h
  · cases h
  · cases h
    exact hm.tree hn'

theorem inTree_of_read (hinorder : t.inorder = nodes.map .node) :
    ∀ q ∈ (links N).head :: (links N).nil :: (Links.frameNodes [] ++ t.inorder), InTree nodes q := by
  intro q hq
  simp only [List.mem_cons, Links.frameNodes, List.nil_append, hinorder, List.mem_map] at hq
  obtain rfl | rfl | ⟨n', hn', rfl⟩ := hq
  · exact .inl rfl
  · exact .inr (.inl rfl)
  · exact .inr (.inr ⟨n', hn', rfl⟩)

/-- What another node of the tree owns is not touched. -/
theorem owns_of_same {mem' : Mem N} (hinv : DupsInv nodes dups mem) (hn : n ∈ nodes)
    (hsame : ∀ q, q = .node n ∨ (∃ d ∈ dups n, q = .node d) → mem'.node q = mem.node q) :
    Owns mem' n (dups n) := by
  have howns := hinv.2 n hn
  have hnode := hsame _ (.inl rfl)
  refine ⟨hnode ▸ howns.duplicate, hnode ▸ howns.continues, hnode ▸ howns.first,
    howns.chained.congr fun d hd => ?_⟩
  rw [hsame _ (.inr ⟨d, hd, rfl⟩)]
  exact ⟨rfl, rfl, rfl⟩

theorem focus_linkFirst (hapart : Apart nodes dups)
    (hf : (links N).Focus (InTree nodes) (DupsInv nodes dups) mem [] t)
    (hinorder : t.inorder = nodes.map .node) (hn : n ∈ nodes) (hm : Fresh nodes dups m)
    (hds : dups n = []) : (links N).Focus (InTree nodes)
      (DupsInv nodes (Function.update dups n [m])) (linkFirst mem n m) [] t := by
  have howns := hf.inv.2 n hn
  have hdup : (mem.node (.node n)).duplicate = false := by rw [howns.duplicate, hds]; rfl
  have hnm : n ≠ m := fun heq => hm.tree (heq ▸ hn)
  have hnew := node_linkFirst mem n m (.node m)
  rw [if_pos rfl] at hnew
  have hnode := node_linkFirst mem n m (.node n)
  rw [if_neg (by simpa using hnm), if_pos rfl] at hnode
  have hother : ∀ q, q ≠ .node n → q ≠ .node m → (linkFirst mem n m).node q = mem.node q := by
    intro q hqn hqm
    rw [node_linkFirst, if_neg hqm, if_neg hqn]
  have hdups : ∀ n' ∈ nodes, ∀ d ∈ dups n',
      (linkFirst mem n m).node (.node d) = mem.node (.node d) := by
    intro n' hn' d hd
    refine hother _ ?_ ?_
    · simpa using fun heq : d = n => hapart.notMem n' hn' d hd (heq ▸ hn)
    · simpa using fun heq : d = m => hm.chain n' hn' (heq ▸ hd)
  have hTree : ∀ q, InTree nodes q → q ≠ .node n → (linkFirst mem n m).node q = mem.node q :=
    fun q hq hqn => hother q hqn fun heq => hm.not_inTree (heq ▸ hq)
  refine hf.congr ⟨⟨?_, ?_⟩, fun n' hn' => ?_⟩ (fun _ hq => hq) fun q hq => ?_
  · rw [hTree _ (.inl rfl) (by simp)]
    exact hf.inv.1.1
  · rw [hTree _ (.inr (.inl rfl)) (by simp)]
    exact hf.inv.1.2
  · by_cases heq : n' = n
    · subst heq
      rw [Function.update_self]
      refine ⟨?_, ?_, ?_, ?_, ?_, ?_⟩
      · rw [hnode]
        rfl
      · rw [hnode]
        exact howns.continues
      · rintro d rest ⟨⟩
        rw [hnode]
      · rw [hnew]
      · rw [hnew]
      · rw [hnew]
    · rw [Function.update_of_ne heq]
      refine owns_of_same hf.inv hn' ?_
      rintro q (rfl | ⟨d, hd, rfl⟩)
      · exact hTree _ (.inr (.inr ⟨n', hn', rfl⟩)) (by simpa using heq)
      · exact hdups n' hn' d hd
  · have hq' := inTree_of_read hinorder q hq
    by_cases heq : q = .node n
    · subst heq
      refine ⟨?_, fun e => ?_⟩
      · change ((linkFirst mem n m).node _).red = (mem.node _).red
        rw [hnode]
      · cases e with
        | left => simp [links, getLeft, hnode, hnew, hdup]
        | right => simp [links, getRight, hnode]
    · have hnodeq := hTree q hq' heq
      refine ⟨congrArg ILRBTreeNode.red hnodeq, fun e => ?_⟩
      cases e with
      | left =>
        change getLeft (linkFirst mem n m) q = getLeft mem q
        rw [getLeft_eq, getLeft_eq, slot, slot, hnodeq]
        split
        · rcases slot_cases hf.inv hq' with ⟨_, hno⟩ | ⟨n', hn', d, hd, _, _, hleft, _⟩
          · simp_all
          · rw [hleft, hdups n' hn' d hd]
        · rw [hnodeq]
      | right => simp [links, getRight, hnodeq]

theorem focus_linkAfter {init : List N} {last : N} (hapart : Apart nodes dups)
    (hf : (links N).Focus (InTree nodes) (DupsInv nodes dups) mem [] t)
    (hinorder : t.inorder = nodes.map .node) (hn : n ∈ nodes) (hm : Fresh nodes dups m)
    (hsplit : dups n = init ++ [last]) (hnodup : (dups n).Nodup) :
    (links N).Focus (InTree nodes) (DupsInv nodes (Function.update dups n (dups n ++ [m])))
      (linkAfter mem last m) [] t := by
  have howns := hf.inv.2 n hn
  have hlast : last ∈ dups n := by simp [hsplit]
  have hlastTree := notInTree_of_dup hapart hn hlast
  have hnode : ∀ q, q ≠ .node m → q ≠ .node last → (linkAfter mem last m).node q = mem.node q := by
    intro q hqm hql
    rw [node_linkAfter, if_neg hqm, if_neg hql]
  have hTree : ∀ q, InTree nodes q → (linkAfter mem last m).node q = mem.node q := by
    intro q hq
    exact hnode q (fun heq => hm.not_inTree (heq ▸ hq)) fun heq => hlastTree (heq ▸ hq)
  refine hf.congr ⟨⟨?_, ?_⟩, fun n' hn' => ?_⟩ (fun _ hq => hq) fun q hq => ?_
  · rw [hTree _ (.inl rfl)]
    exact hf.inv.1.1
  · rw [hTree _ (.inr (.inl rfl))]
    exact hf.inv.1.2
  · have hnode' := hTree (.node n') (.inr (.inr ⟨n', hn', rfl⟩))
    by_cases heq : n' = n
    · subst heq
      rw [Function.update_self]
      refine ⟨?_, hnode' ▸ howns.continues, fun e rest hcons => ?_, ?_⟩
      · rw [hnode', howns.duplicate, hsplit]
        cases init <;> rfl
      · rw [hnode']
        cases hds : dups n' with
        | nil => simp [hds] at hlast
        | cons d ds =>
          rw [hds] at hcons
          rw [← (List.cons.inj hcons).1]
          exact howns.first d ds hds
      · rw [hsplit]
        exact chained_linkAfter (hsplit ▸ howns.chained) (hsplit ▸ hnodup)
          (hsplit ▸ hm.chain n' hn')
    · rw [Function.update_of_ne heq]
      refine owns_of_same hf.inv hn' ?_
      rintro q (rfl | ⟨d, hd, rfl⟩)
      · exact hnode'
      · refine hnode _ ?_ ?_
        · simpa using fun heq : d = m => hm.chain n' hn' (heq ▸ hd)
        · simpa using fun heq' : d = last => heq (hapart.owner n' hn' n hn d hd (heq' ▸ hlast))
  · have hq' := inTree_of_read hinorder q hq
    have hnodeq := hTree q hq'
    refine ⟨congrArg ILRBTreeNode.red hnodeq, fun e => ?_⟩
    cases e with
    | left =>
      change getLeft (linkAfter mem last m) q = getLeft mem q
      rw [getLeft_eq, getLeft_eq, slot, slot, hnodeq]
      split
      · rcases slot_cases hf.inv hq' with ⟨_, hno⟩ | ⟨n', hn', e, he, _, _, hleft, _⟩
        · simp_all
        · have hem : NodePtr.node e ≠ .node m := by
            simpa using fun heq : e = m => hm.chain n' hn' (heq ▸ he)
          rw [hleft, node_linkAfter, if_neg hem]
          split <;> simp_all
      · rw [hnodeq]
    | right => simp [links, getRight, hnodeq]

/-- A new duplicate, read back through the macros, changes no link and no colour. -/
theorem addDuplicate_spec (hapart : Apart nodes dups)
    (hf : (links N).Focus (InTree nodes) (DupsInv nodes dups) mem [] t)
    (hinorder : t.inorder = nodes.map .node) (hn : n ∈ nodes) (hm : Fresh nodes dups m)
    (hnodup : (dups n).Nodup) :
    ∃ mem', (∀ fuel, (dups n).length ≤ fuel → addDuplicate fuel mem (.node n) m = some mem') ∧
      (links N).Focus (InTree nodes)
        (DupsInv nodes (Function.update dups n (dups n ++ [m]))) mem' [] t := by
  have howns := hf.inv.2 n hn
  have hdup := howns.duplicate
  unfold addDuplicate
  cases hds : dups n with
  | nil =>
    rw [hds] at hdup
    rw [show (mem.node (.node n)).duplicate = false from hdup]
    exact ⟨linkFirst mem n m, fun _ _ => rfl, focus_linkFirst hapart hf hinorder hn hm hds⟩
  | cons d rest =>
    rw [hds] at hdup
    obtain ⟨init, last, hsplit⟩ : ∃ init last, dups n = init ++ [last] :=
      ⟨_, _, (List.dropLast_append_getLast (by simp [hds])).symm⟩
    rw [show (mem.node (.node n)).duplicate = true from hdup, howns.first d rest hds]
    refine ⟨linkAfter mem last m, fun fuel hfuel => ?_,
      hds ▸ focus_linkAfter hapart hf hinorder hn hm hsplit hnodup⟩
    have hrun : lastDuplicate mem fuel (.node d) = some (.node last) :=
      lastDuplicate_spec (hsplit.symm.trans hds) (hds ▸ howns.chained) (Nat.le_of_succ_le hfuel)
    simp only [↓reduceIte, hrun]
    rfl

end Focus

end Pnet.Codegen
