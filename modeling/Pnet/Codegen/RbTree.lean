import Pnet.Lib.RedBlackLoop

/-! The red-black trees of `codegen/cg_rbtree.c`. A node with duplicates has the first of
them in `_left`, and the left subtree in `_left` of that one; `_right` leads from each
duplicate to the next. `kind` and `_iterParent`, which insertion, search and freeing do
not use, are left out. -/
namespace Pnet.Codegen
open Pnet.Lib Pnet.Lib.RedBlack

inductive NodePtr (N : Type) where
  | null
  | head
  | nil
  | node (n : N)
deriving DecidableEq

/-- `continues` is the flag `_continue`. -/
structure ILRBTreeNode (N : Type) where
  left : NodePtr N
  right : NodePtr N
  red : Bool
  duplicate : Bool
  continues : Bool

/-- The memory of the two nodes inside the tree, and of those of its user. -/
structure Mem (N : Type) where
  node : NodePtr N → ILRBTreeNode N

variable {N K : Type} [DecidableEq N]

def setNode (mem : Mem N) (p : NodePtr N) (node : ILRBTreeNode N) : Mem N :=
  ⟨Function.update mem.node p node⟩

def ilRBTreeInit (mem : Mem N) : Mem N :=
  let mem := setNode mem .nil ⟨.nil, .nil, false, false, false⟩
  setNode mem .head ⟨.null, .nil, false, false, false⟩

def getLeft (mem : Mem N) (node : NodePtr N) : NodePtr N :=
  if (mem.node node).duplicate then (mem.node (mem.node node).left).left else (mem.node node).left

def getRight (mem : Mem N) (node : NodePtr N) : NodePtr N := (mem.node node).right

def setLeft (mem : Mem N) (node value : NodePtr N) : Mem N :=
  if (mem.node node).duplicate then
    setNode mem (mem.node node).left { mem.node (mem.node node).left with left := value }
  else setNode mem node { mem.node node with left := value }

def setRight (mem : Mem N) (node value : NodePtr N) : Mem N :=
  setNode mem node { mem.node node with right := value }

def setRed (mem : Mem N) (node : NodePtr N) (red : Bool) : Mem N :=
  setNode mem node { mem.node node with red := red }

section Compare

variable (compareFunc : K → N → Int)

/-- The comparison function is never given a null pointer in a tree that is well formed. -/
def compare (key : K) : NodePtr N → Int
  | .node n => compareFunc key n
  | _ => 1

/-- `none` when the search does not end with this fuel. -/
def searchLoop (mem : Mem N) (key : K) : Nat → NodePtr N → Option (NodePtr N)
  | 0, node => if node = .nil then some .null else none
  | fuel + 1, node =>
    if node = .nil then some .null
    else
      let cmp := compare compareFunc key node
      if cmp = 0 then some node
      else if cmp < 0 then
        if !(mem.node node).duplicate then searchLoop mem key fuel (mem.node node).left
        else searchLoop mem key fuel (mem.node (mem.node node).left).left
      else searchLoop mem key fuel (mem.node node).right

def ilRBTreeSearch (fuel : Nat) (mem : Mem N) (key : K) : Option (NodePtr N) :=
  searchLoop compareFunc mem key fuel (mem.node .head).right

def ilRBTreeNext (mem : Mem N) (node : NodePtr N) : NodePtr N :=
  if (mem.node node).duplicate then (mem.node node).left
  else if (mem.node node).continues then (mem.node node).right
  else .null

/-! ### Insertion -/

def rotate (key : K) (mem : Mem N) (around : NodePtr N) : Mem N × NodePtr N :=
  let setOnLeft := compare compareFunc key around < 0
  let child := if setOnLeft then getLeft mem around else getRight mem around
  let (mem, grandChild) :=
    if compare compareFunc key child < 0 then
      let grandChild := getLeft mem child
      let mem := setLeft mem child (getRight mem grandChild)
      (setRight mem grandChild child, grandChild)
    else
      let grandChild := getRight mem child
      let mem := setRight mem child (getLeft mem grandChild)
      (setLeft mem grandChild child, grandChild)
  (if setOnLeft then setLeft mem around grandChild else setRight mem around grandChild, grandChild)

def split (key : K) (c : Cursor (Mem N) (NodePtr N)) : Cursor (Mem N) (NodePtr N) :=
  let mem := setRed c.heap c.temp true
  let mem := setRed mem (getLeft mem c.temp) false
  let mem := setRed mem (getRight mem c.temp) false
  if (mem.node c.parent).red then
    let mem := setRed mem c.grandParent true
    let (mem, parent) :=
      if (compare compareFunc key c.grandParent < 0) ≠ (compare compareFunc key c.parent < 0) then
        rotate compareFunc key mem c.grandParent
      else (mem, c.parent)
    let (mem, temp) := rotate compareFunc key mem c.greatGrandParent
    { c with heap := setRed mem temp false, temp := temp, parent := parent }
  else { c with heap := mem }

/-- One round of the loop; it fails at a node with an equal key. -/
def insertStep (key : K) (c : Cursor (Mem N) (NodePtr N)) :
    Except (Cursor (Mem N) (NodePtr N)) (Cursor (Mem N) (NodePtr N)) :=
  let c := { c with greatGrandParent := c.grandParent, grandParent := c.parent, parent := c.temp }
  let cmp := compare compareFunc key c.temp
  if cmp = 0 then .error c
  else
    let temp := if cmp < 0 then getLeft c.heap c.temp else getRight c.heap c.temp
    let c := { c with temp := temp }
    if (c.heap.node (getLeft c.heap c.temp)).red && (c.heap.node (getRight c.heap c.temp)).red then
      .ok (split compareFunc key c)
    else .ok c

/-- The last of the duplicates from here on. -/
def lastDuplicate (mem : Mem N) : Nat → NodePtr N → Option (NodePtr N)
  | 0, temp => if (mem.node temp).right = .null then some temp else none
  | fuel + 1, temp =>
    if (mem.node temp).right = .null then some temp else lastDuplicate mem fuel (mem.node temp).right

def addDuplicate (fuel : Nat) (mem : Mem N) (temp : NodePtr N) (node : N) : Option (Mem N) :=
  if (mem.node temp).duplicate then
    match lastDuplicate mem fuel (mem.node temp).left with
    | some last =>
      let mem := setNode mem last { mem.node last with right := .node node, continues := true }
      some (setNode mem (.node node) ⟨.null, .null, false, false, false⟩)
    | none => none
  else
    let left := (mem.node temp).left
    let mem := setNode mem temp { mem.node temp with left := .node node, duplicate := true }
    some (setNode mem (.node node) ⟨left, .null, false, false, false⟩)

def addNode (key : K) (c : Cursor (Mem N) (NodePtr N)) (node : N) : Mem N :=
  let mem := setNode c.heap (.node node) ⟨.nil, .nil, true, false, false⟩
  let mem :=
    if compare compareFunc key c.parent < 0 then setLeft mem c.parent (.node node)
    else setRight mem c.parent (.node node)
  let mem := (split compareFunc key { c with heap := mem }).heap
  setRed mem (mem.node .head).right false

def ilRBTreeInsert (fuel : Nat) (mem : Mem N) (node : N) (key : K) : Option (Mem N) :=
  match run (fun c => decide (c.temp = .nil)) (insertStep compareFunc key) fuel
      ⟨mem, .head, .head, .head, .head⟩ with
  | none => none
  | some (.error c) => addDuplicate fuel c.heap c.temp node
  | some (.ok c) => some (addNode compareFunc key c node)

end Compare

/-! ### Freeing -/

/-- What `FreeSubTree` calls `freeFunc` on, in order; `error` is a read through a null
pointer, and `none` a walk that does not end with this fuel. -/
def freeSubTree (mem : Mem N) : Nat → NodePtr N → Option (Except Unit (List (NodePtr N)))
  | _, .null => some (.error ())
  | 0, _ => none
  | fuel + 1, node =>
    let sub (temp : NodePtr N) : Option (Except Unit (List (NodePtr N))) :=
      if temp ≠ .nil then freeSubTree mem fuel temp else some (.ok [])
    match sub (mem.node node).left with
    | some (.ok left) =>
      match sub (mem.node node).right with
      | some (.ok right) => some (.ok (left ++ right ++ [node]))
      | r => r
    | r => r

/-- The tree after the call, and what was freed; `freeFunc` says whether there is such a
function. -/
def ilRBTreeFree (freeFunc : Bool) (fuel : Nat) (mem : Mem N) :
    Option (Except Unit (Mem N × List (NodePtr N))) :=
  let mem' := setNode mem .head ⟨.null, .nil, false, false, false⟩
  if (mem.node .head).right ≠ .nil then
    if freeFunc then
      match freeSubTree mem fuel (mem.node .head).right with
      | some (.ok freed) => some (.ok (mem', freed))
      | some (.error e) => some (.error e)
      | none => none
    else some (.ok (mem', []))
  else some (.ok (mem, []))

end Pnet.Codegen

/-! ### Links

The macros of `codegen/cg_rbtree.c` as the links and colours of a red-black tree. The
chains of duplicates are out of their reach. -/
namespace Pnet.Codegen
open Pnet.Lib Pnet.Lib.RedBlack

variable {N K : Type} [DecidableEq N]

def links (N : Type) [DecidableEq N] : Links (Mem N) (NodePtr N) where
  head := .head
  nil := .nil
  child mem node d := match d with
    | .left => getLeft mem node
    | .right => getRight mem node
  setChild mem node d value := match d with
    | .left => setLeft mem node value
    | .right => setRight mem node value
  red mem node := (mem.node node).red
  setRed := setRed

section Compare

variable (compareFunc : K → N → Int) (key : K)

theorem rotate_eq (mem : Mem N) (around : NodePtr N) :
    rotate compareFunc key mem around =
      (links N).rotate (compare compareFunc key) mem around := by
  unfold rotate Links.rotate dirOf
  by_cases haround : compare compareFunc key around < 0
  · simp only [haround, ↓reduceIte]
    by_cases hchild : compare compareFunc key (getLeft mem around) < 0
    · simp [links, hchild, Dir.op]
    · simp [links, hchild, Dir.op]
  · simp only [haround, ↓reduceIte]
    by_cases hchild : compare compareFunc key (getRight mem around) < 0
    · simp [links, hchild, Dir.op]
    · simp [links, hchild, Dir.op]

theorem split_eq (c : Cursor (Mem N) (NodePtr N)) :
    split compareFunc key c = (links N).split (compare compareFunc key) c := by
  have hdir : ∀ p q : NodePtr N, ((compare compareFunc key p < 0) ≠ (compare compareFunc key q < 0)) ↔
      ¬ dirOf (compare compareFunc key) p = dirOf (compare compareFunc key) q := by
    intro p q
    unfold dirOf
    by_cases hp : compare compareFunc key p < 0
    · by_cases hq : compare compareFunc key q < 0
      · simp [hp, hq]
      · simp [hp, hq]
    · by_cases hq : compare compareFunc key q < 0
      · simp [hp, hq]
      · simp [hp, hq]
  unfold split Links.split Links.mend
  simp only [rotate_eq, hdir, ite_not]
  rfl

theorem insertStep_eq (c : Cursor (Mem N) (NodePtr N)) :
    insertStep compareFunc key c = (links N).step (compare compareFunc key) c := by
  unfold insertStep Links.step dirOf
  by_cases hlt : compare compareFunc key c.temp < 0
  · simp only [hlt, ↓reduceIte, split_eq]
    rfl
  · simp only [hlt, ↓reduceIte, split_eq]
    rfl

theorem addNode_eq (c : Cursor (Mem N) (NodePtr N)) (node : N) :
    addNode compareFunc key c node = (links N).finish (compare compareFunc key)
      { c with heap := setNode c.heap (.node node) ⟨.nil, .nil, true, false, false⟩ }
      (.node node) := by
  unfold addNode Links.finish dirOf
  by_cases hlt : compare compareFunc key c.parent < 0
  · simp only [hlt, ↓reduceIte, split_eq]
    rfl
  · simp only [hlt, ↓reduceIte, split_eq]
    rfl

end Compare

/-! ### Where a node keeps its left subtree -/

theorem node_setNode (mem : Mem N) (p q : NodePtr N) (x : ILRBTreeNode N) :
    (setNode mem p x).node q = if q = p then x else mem.node q := by
  simp [setNode, Function.update_apply]

def slot (mem : Mem N) (node : NodePtr N) : NodePtr N :=
  if (mem.node node).duplicate then (mem.node node).left else node

omit [DecidableEq N] in
theorem getLeft_eq (mem : Mem N) (node : NodePtr N) :
    getLeft mem node = (mem.node (slot mem node)).left := by
  unfold getLeft slot
  split <;> rfl

theorem setLeft_eq (mem : Mem N) (node value : NodePtr N) :
    setLeft mem node value =
      setNode mem (slot mem node) { mem.node (slot mem node) with left := value } := by
  unfold setLeft slot
  split <;> rfl

/-- The nodes after a duplicate, and the flags on the way. -/
def Chained (mem : Mem N) : List N → Prop
  | [] => True
  | [d] => (mem.node (.node d)).duplicate = false ∧ (mem.node (.node d)).continues = false ∧
      (mem.node (.node d)).right = .null
  | d :: e :: dups => (mem.node (.node d)).duplicate = false ∧
      (mem.node (.node d)).continues = true ∧ (mem.node (.node d)).right = .node e ∧
      Chained mem (e :: dups)

/-- A node of the tree and its duplicates, in order. -/
structure Owns (mem : Mem N) (n : N) (dups : List N) : Prop where
  duplicate : (mem.node (.node n)).duplicate = !dups.isEmpty
  continues : (mem.node (.node n)).continues = false
  first : ∀ d rest, dups = d :: rest → (mem.node (.node n)).left = .node d
  chained : Chained mem dups

def Sentinels (mem : Mem N) : Prop :=
  (mem.node .head).duplicate = false ∧ (mem.node .nil).duplicate = false

/-- The nodes that the macros are used on. -/
def InTree (nodes : List N) (p : NodePtr N) : Prop := p = .head ∨ p = .nil ∨ ∃ n ∈ nodes, p = .node n

/-- No duplicate is a node of the tree, or a duplicate of two of them. -/
structure Apart (nodes : List N) (dups : N → List N) : Prop where
  notMem : ∀ n ∈ nodes, ∀ d ∈ dups n, d ∉ nodes
  owner : ∀ n ∈ nodes, ∀ n' ∈ nodes, ∀ d ∈ dups n, d ∈ dups n' → n = n'

def DupsInv (nodes : List N) (dups : N → List N) (mem : Mem N) : Prop :=
  Sentinels mem ∧ ∀ n ∈ nodes, Owns mem n (dups n)

variable {nodes : List N} {dups : N → List N} {mem mem' : Mem N} {p q : NodePtr N}

omit [DecidableEq N] in
theorem Chained.congr {ds : List N} (h : Chained mem ds)
    (hsame : ∀ d ∈ ds, (mem'.node (.node d)).duplicate = (mem.node (.node d)).duplicate ∧
      (mem'.node (.node d)).continues = (mem.node (.node d)).continues ∧
      (mem'.node (.node d)).right = (mem.node (.node d)).right) : Chained mem' ds := by
  induction ds with
  | nil => trivial
  | cons d ds ih =>
    obtain ⟨hdup, hcont, hright⟩ := hsame d List.mem_cons_self
    cases ds with
    | nil => exact ⟨hdup.trans h.1, hcont.trans h.2.1, hright.trans h.2.2⟩
    | cons e ds =>
      refine ⟨hdup.trans h.1, hcont.trans h.2.1, hright.trans h.2.2.1, ih h.2.2.2 ?_⟩
      exact fun d hd => hsame d (List.mem_cons_of_mem _ hd)

omit [DecidableEq N] in
/-- The slot of a node of the tree: itself, or its first duplicate. -/
theorem slot_cases (h : DupsInv nodes dups mem) (hp : InTree nodes p) :
    (slot mem p = p ∧ (mem.node p).duplicate = false) ∨
      ∃ n ∈ nodes, ∃ d ∈ dups n, p = .node n ∧ slot mem p = .node d ∧
        (mem.node p).left = .node d ∧ (mem.node p).duplicate = true := by
  unfold slot
  rcases hp with rfl | rfl | ⟨n, hn, rfl⟩
  · rw [h.1.1]
    exact .inl ⟨rfl, rfl⟩
  · rw [h.1.2]
    exact .inl ⟨rfl, rfl⟩
  · have howns := h.2 n hn
    have hdup := howns.duplicate
    cases hds : dups n with
    | nil =>
      rw [hds] at hdup
      rw [show (mem.node (.node n)).duplicate = false from hdup]
      exact .inl ⟨rfl, rfl⟩
    | cons d rest =>
      rw [hds] at hdup
      rw [show (mem.node (.node n)).duplicate = true from hdup]
      have hfirst := howns.first d rest hds
      refine .inr ⟨n, hn, d, ?_, rfl, hfirst, hfirst, rfl⟩
      rw [hds]
      exact List.mem_cons_self

omit [DecidableEq N] in
theorem slot_inj (hapart : Apart nodes dups) (h : DupsInv nodes dups mem) (hp : InTree nodes p)
    (hq : InTree nodes q) (heq : slot mem p = slot mem q) : p = q := by
  have hnot : ∀ n ∈ nodes, ∀ d ∈ dups n, ¬ InTree nodes (.node d) := by
    rintro n hn d hd (h | h | ⟨m, hm, h⟩)
    · cases h
    · cases h
    · cases h
      exact hapart.notMem n hn d hd hm
  rcases slot_cases h hp with ⟨hsp, _⟩ | ⟨n, hn, d, hd, rfl, hsp, _⟩
  · rcases slot_cases h hq with ⟨hsq, _⟩ | ⟨n, hn, d, hd, rfl, hsq, _⟩
    · rw [← hsp, heq, hsq]
    · rw [hsp, hsq] at heq
      exact absurd (heq ▸ hp) (hnot n hn d hd)
  · rcases slot_cases h hq with ⟨hsq, _⟩ | ⟨m, hm, e, he, rfl, hsq, _⟩
    · rw [hsp, hsq] at heq
      exact absurd (heq ▸ hq) (hnot n hn d hd)
    · rw [hsp, hsq] at heq
      cases heq
      rw [hapart.owner n hn m hm d hd he]

/-- What a macro may change: nothing that holds the chains together. -/
structure KeepsDups (nodes : List N) (dups : N → List N) (mem mem' : Mem N) : Prop where
  duplicate : ∀ q, (mem'.node q).duplicate = (mem.node q).duplicate
  continues : ∀ q, (mem'.node q).continues = (mem.node q).continues
  left : ∀ q, InTree nodes q → (mem.node q).duplicate = true → (mem'.node q).left = (mem.node q).left
  right : ∀ n ∈ nodes, ∀ d ∈ dups n, (mem'.node (.node d)).right = (mem.node (.node d)).right

omit [DecidableEq N] in
theorem DupsInv.keep (h : DupsInv nodes dups mem) (hkeep : KeepsDups nodes dups mem mem') :
    DupsInv nodes dups mem' := by
  refine ⟨⟨(hkeep.duplicate _).trans h.1.1, (hkeep.duplicate _).trans h.1.2⟩, fun n hn => ?_⟩
  have howns := h.2 n hn
  refine ⟨(hkeep.duplicate _).trans howns.duplicate, (hkeep.continues _).trans howns.continues,
    fun d rest hds => ?_, ?_⟩
  · refine (hkeep.left _ (.inr (.inr ⟨n, hn, rfl⟩)) ?_).trans (howns.first d rest hds)
    rw [howns.duplicate, hds]
    rfl
  · exact howns.chained.congr fun d hd =>
      ⟨hkeep.duplicate _, hkeep.continues _, hkeep.right n hn d hd⟩

omit [DecidableEq N] in
theorem KeepsDups.slot (hkeep : KeepsDups nodes dups mem mem') (hq : InTree nodes q) :
    slot mem' q = slot mem q := by
  unfold Codegen.slot
  rw [hkeep.duplicate]
  split
  · exact hkeep.left q hq ‹_›
  · rfl

omit [DecidableEq N] in
theorem notInTree_of_dup (hapart : Apart nodes dups) {n d : N} (hn : n ∈ nodes) (hd : d ∈ dups n) :
    ¬ InTree nodes (.node d) := by
  rintro (h | h | ⟨m, hm, h⟩)
  · cases h
  · cases h
  · cases h
    exact hapart.notMem n hn d hd hm

theorem keepsDups_setRed (mem : Mem N) (p : NodePtr N) (c : Bool) :
    KeepsDups nodes dups mem (setRed mem p c) := by
  constructor
  · intro q
    rw [setRed, node_setNode]
    split <;> simp_all
  · intro q
    rw [setRed, node_setNode]
    split <;> simp_all
  · intro q _ _
    rw [setRed, node_setNode]
    split <;> simp_all
  · intro n _ d _
    rw [setRed, node_setNode]
    split <;> simp_all

theorem keepsDups_setRight (hapart : Apart nodes dups) (hp : InTree nodes p) (value : NodePtr N) :
    KeepsDups nodes dups mem (setRight mem p value) := by
  constructor
  · intro q
    rw [setRight, node_setNode]
    split <;> simp_all
  · intro q
    rw [setRight, node_setNode]
    split <;> simp_all
  · intro q _ _
    rw [setRight, node_setNode]
    split <;> simp_all
  · intro n hn d hd
    have hne : NodePtr.node d ≠ p := by
      rintro rfl
      exact notInTree_of_dup hapart hn hd hp
    rw [setRight, node_setNode, if_neg hne]

theorem keepsDups_setLeft (hapart : Apart nodes dups) (h : DupsInv nodes dups mem)
    (hp : InTree nodes p) (value : NodePtr N) :
    KeepsDups nodes dups mem (setLeft mem p value) := by
  rw [setLeft_eq]
  constructor
  · intro q
    rw [node_setNode]
    split <;> simp_all
  · intro q
    rw [node_setNode]
    split <;> simp_all
  · intro q hq hdup
    rw [node_setNode, if_neg]
    rintro rfl
    rcases slot_cases h hp with ⟨hsp, hno⟩ | ⟨n, hn, d, hd, _, hsp, _⟩
    · rw [hsp, hno] at hdup
      cases hdup
    · rw [hsp] at hq
      exact notInTree_of_dup hapart hn hd hq
  · intro n _ d _
    rw [node_setNode]
    split <;> simp_all

theorem lawful (hapart : Apart nodes dups) :
    (links N).Lawful (InTree nodes) (DupsInv nodes dups) where
  head := .inl rfl
  nil := .inr (.inl rfl)
  inv_setChild := by
    intro mem p d value h hp
    cases d with
    | left => exact h.keep (keepsDups_setLeft hapart h hp value)
    | right => exact h.keep (keepsDups_setRight hapart hp value)
  inv_setRed := fun h _ => h.keep (keepsDups_setRed ..)
  child_setChild := by
    intro mem p d value q e h hp hq
    cases d with
    | left =>
      have hslot := (keepsDups_setLeft hapart h hp value).slot hq
      cases e with
      | left =>
        change getLeft (setLeft mem p value) q = if q = p ∧ _ then value else getLeft mem q
        rw [getLeft_eq, hslot, setLeft_eq, node_setNode, getLeft_eq]
        by_cases hqp : q = p
        · simp [hqp]
        · rw [if_neg fun heq => hqp (slot_inj hapart h hq hp heq), if_neg fun hboth => hqp hboth.1]
      | right =>
        change getRight (setLeft mem p value) q = if q = p ∧ _ then value else getRight mem q
        rw [if_neg (by simp), getRight, setLeft_eq, node_setNode]
        split <;> simp_all [getRight]
    | right =>
      have hkeep : KeepsDups nodes dups mem (setRight mem p value) :=
        keepsDups_setRight hapart hp value
      have hslot := hkeep.slot hq
      cases e with
      | left =>
        change getLeft (setRight mem p value) q = if q = p ∧ _ then value else getLeft mem q
        rw [if_neg (by simp), getLeft_eq, hslot, setRight, node_setNode, getLeft_eq]
        split <;> simp_all
      | right =>
        change getRight (setRight mem p value) q = if q = p ∧ _ then value else getRight mem q
        rw [getRight, setRight, node_setNode]
        by_cases hqp : q = p
        · simp [hqp]
        · simp [hqp, getRight]
  child_setRed := by
    intro mem p c q e h hp hq
    have hkeep : KeepsDups nodes dups mem (setRed mem p c) := keepsDups_setRed mem p c
    have hslot := hkeep.slot hq
    cases e with
    | left =>
      change getLeft (setRed mem p c) q = getLeft mem q
      rw [getLeft_eq, hslot, setRed, node_setNode, getLeft_eq]
      split <;> simp_all
    | right =>
      change getRight (setRed mem p c) q = getRight mem q
      rw [getRight, setRed, node_setNode, getRight]
      split <;> simp_all
  red_setChild := by
    intro mem p d value q h hp hq
    cases d with
    | left =>
      change ((setLeft mem p value).node q).red = (mem.node q).red
      rw [setLeft_eq, node_setNode]
      split <;> simp_all
    | right =>
      change ((setRight mem p value).node q).red = (mem.node q).red
      rw [setRight, node_setNode]
      split <;> simp_all
  red_setRed := by
    intro mem p c q h hp hq
    change ((setRed mem p c).node q).red = if q = p then c else (mem.node q).red
    rw [setRed, node_setNode]
    split <;> rfl

end Pnet.Codegen
