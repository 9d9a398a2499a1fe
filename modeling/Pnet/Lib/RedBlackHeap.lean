import Pnet.Lib.RedBlack

/-! Red-black trees whose nodes sit in a heap, under a `head` whose right child is the
root, with one node `nil` for every empty tree. -/
namespace Pnet.Lib.RedBlack
open Tree

/-- How a program reads and writes the links and the colours of its nodes. -/
structure Links (H P : Type) where
  head : P
  nil : P
  child : H → P → Dir → P
  setChild : H → P → Dir → P → H
  red : H → P → Bool
  setRed : H → P → Bool → H

variable {H P : Type}

namespace Links

variable [DecidableEq P] in
/-- In heaps with `inv`, the nodes `S` have two links and a colour each, and nothing else
in them is written. -/
structure Lawful (L : Links H P) (S : P → Prop) (inv : H → Prop) : Prop where
  head : S L.head
  nil : S L.nil
  inv_setChild : ∀ {h p d v}, inv h → S p → inv (L.setChild h p d v)
  inv_setRed : ∀ {h p c}, inv h → S p → inv (L.setRed h p c)
  child_setChild : ∀ {h p d v q e}, inv h → S p → S q →
    L.child (L.setChild h p d v) q e = if q = p ∧ e = d then v else L.child h q e
  child_setRed : ∀ {h p c q e}, inv h → S p → S q → L.child (L.setRed h p c) q e = L.child h q e
  red_setChild : ∀ {h p d v q}, inv h → S p → S q → L.red (L.setChild h p d v) q = L.red h q
  red_setRed : ∀ {h p c q}, inv h → S p → S q →
    L.red (L.setRed h p c) q = if q = p then c else L.red h q

variable (L : Links H P)

def ptr : Tree P → P
  | .nil => L.nil
  | .node _ p _ _ => p

/-- The heap holds the tree. -/
def Repr (h : H) : Tree P → Prop
  | .nil => True
  | .node c p left right => L.red h p = c ∧ L.child h p .left = L.ptr left ∧
      L.child h p .right = L.ptr right ∧ Repr h left ∧ Repr h right

def top : List (Frame P) → P
  | [] => L.head
  | f :: _ => f.p

def topSide : List (Frame P) → Dir
  | [] => .right
  | f :: _ => f.side

/-- The heap holds what is around the place. -/
def Above (h : H) : List (Frame P) → Prop
  | [] => True
  | f :: ctx => L.red h f.p = f.red ∧ L.child h f.p f.side.op = L.ptr f.other ∧
      L.Repr h f.other ∧ L.child h (L.top ctx) (topSide ctx) = f.p ∧ Above h ctx

/-- The heap holds the whole tree, of different nodes out of `S`. -/
structure Focus (S : P → Prop) (inv : H → Prop) (h : H) (ctx : List (Frame P)) (t : Tree P) :
    Prop where
  inv : inv h
  nodup : (L.head :: L.nil :: (plug ctx t).inorder).Nodup
  mem : ∀ p ∈ (plug ctx t).inorder, S p
  nil_black : L.red h L.nil = false
  nil_child : ∀ d, L.child h L.nil d = L.nil
  head_black : L.red h L.head = false
  hole : L.child h (L.top ctx) (topSide ctx) = L.ptr t
  above : L.Above h ctx
  tree : L.Repr h t

variable {L} {S : P → Prop} {inv : H → Prop} {h h' : H} {ctx : List (Frame P)}
  {a b t : Tree P} {d e : Dir} {c : Bool} {p q : P}

@[simp] theorem ptr_branch : L.ptr (branch d c p a b) = p := by cases d <;> rfl

theorem repr_branch : L.Repr h (branch d c p a b) ↔ L.red h p = c ∧ L.child h p d = L.ptr a ∧
    L.child h p d.op = L.ptr b ∧ L.Repr h a ∧ L.Repr h b := by
  cases d with
  | left => exact Iff.rfl
  | right =>
    simp only [branch, Repr, Dir.op]
    tauto

theorem Repr.congr (ht : L.Repr h t) (hsame : ∀ q ∈ t.inorder,
    L.red h' q = L.red h q ∧ ∀ e, L.child h' q e = L.child h q e) : L.Repr h' t := by
  induction t with
  | nil => trivial
  | node c p left right ihl ihr =>
    obtain ⟨hred, hleft, hright, hl, hr⟩ := ht
    simp only [inorder, List.mem_append, List.mem_cons] at hsame
    obtain ⟨hredp, hchildp⟩ := hsame p (.inr (.inl rfl))
    refine ⟨hredp.trans hred, (hchildp _).trans hleft, (hchildp _).trans hright, ?_, ?_⟩
    · exact ihl hl fun q hq => hsame q (.inl hq)
    · exact ihr hr fun q hq => hsame q (.inr (.inr hq))

/-- The nodes of the frames. -/
def frameNodes : List (Frame P) → List P
  | [] => []
  | f :: ctx => f.p :: (f.other.inorder ++ frameNodes ctx)

theorem inorder_branch_perm (d : Dir) (c : Bool) (p : P) (a b : Tree P) :
    (branch d c p a b).inorder.Perm (p :: (a.inorder ++ b.inorder)) := by
  cases d with
  | left => exact List.perm_middle
  | right => exact List.perm_middle.trans (List.perm_append_comm.cons p)

theorem inorder_plug_perm (ctx : List (Frame P)) (t : Tree P) :
    (plug ctx t).inorder.Perm (frameNodes ctx ++ t.inorder) := by
  induction ctx generalizing t with
  | nil => exact .refl _
  | cons f ctx ih =>
    rw [frameNodes, List.cons_append, List.append_assoc]
    refine (ih _).trans (((inorder_branch_perm ..).append_left _).trans ?_)
    refine List.perm_middle.trans (List.Perm.cons _ ?_)
    rw [← List.append_assoc, ← List.append_assoc]
    exact List.perm_append_comm.trans (by rw [List.append_assoc])

theorem top_mem : L.top ctx ∈ L.head :: frameNodes ctx := by
  cases ctx with
  | nil => exact List.mem_cons_self
  | cons f ctx => exact List.mem_cons_of_mem _ List.mem_cons_self

theorem Above.congr (habove : L.Above h ctx) (hnodup : (L.head :: frameNodes ctx).Nodup)
    (hred : ∀ q ∈ frameNodes ctx, L.red h' q = L.red h q)
    (hchild : ∀ q ∈ L.head :: frameNodes ctx, ∀ e, ¬ (q = L.top ctx ∧ e = topSide ctx) →
      L.child h' q e = L.child h q e) : L.Above h' ctx := by
  induction ctx with
  | nil => trivial
  | cons f ctx ih =>
    obtain ⟨hfred, hfchild, hother, hup, habove⟩ := habove
    simp only [frameNodes, List.nodup_cons, List.mem_cons, List.mem_append, not_or] at hnodup
    obtain ⟨⟨hhead, hheadOther, hheadCtx⟩, ⟨hfOther, hfCtx⟩, hrest⟩ := hnodup
    have hmem : ∀ q ∈ frameNodes ctx, q ∈ frameNodes (f :: ctx) := fun q hq =>
      List.mem_cons_of_mem _ (List.mem_append_right _ hq)
    have hstrong : ∀ q ∈ L.head :: frameNodes ctx, ∀ e, L.child h' q e = L.child h q e := by
      intro q hq e
      refine hchild q ?_ e ?_
      · rcases List.mem_cons.1 hq with rfl | hq
        · exact List.mem_cons_self
        · exact List.mem_cons_of_mem _ (hmem q hq)
      · rintro ⟨rfl, -⟩
        rcases List.mem_cons.1 hq with hq | hq
        · exact hhead hq.symm
        · exact hfCtx hq
    refine ⟨?_, ?_, ?_, ?_, ?_⟩
    · exact (hred _ List.mem_cons_self).trans hfred
    · refine (hchild _ (List.mem_cons_of_mem _ List.mem_cons_self) _ ?_).trans hfchild
      exact fun hboth => Dir.op_ne _ hboth.2
    · refine hother.congr fun q hq => ?_
      have hq' : q ∈ frameNodes (f :: ctx) :=
        List.mem_cons_of_mem _ (List.mem_append_left _ hq)
      refine ⟨hred q hq', fun e => hchild q (List.mem_cons_of_mem _ hq') e ?_⟩
      rintro ⟨rfl, -⟩
      exact hfOther hq
    · exact (hstrong _ top_mem _).trans hup
    · refine ih habove ?_ (fun q hq => hred q (hmem q hq)) fun q hq e _ => hstrong q hq e
      exact List.nodup_cons.2 ⟨hheadCtx, (List.nodup_append.1 hrest).2.1⟩

namespace Focus

theorem nodup_frames (hf : L.Focus S inv h ctx t) :
    (L.head :: L.nil :: (frameNodes ctx ++ t.inorder)).Nodup :=
  (((inorder_plug_perm ctx t).cons _).cons _).nodup_iff.1 hf.nodup

theorem mem_frames (hf : L.Focus S inv h ctx t) (hp : p ∈ frameNodes ctx ++ t.inorder) : S p :=
  hf.mem p ((inorder_plug_perm ctx t).mem_iff.2 hp)

theorem head_nodup (hf : L.Focus S inv h ctx t) : (L.head :: frameNodes ctx).Nodup :=
  hf.nodup_frames.sublist
    (((List.sublist_append_left _ _).trans (List.sublist_cons_self _ _)).cons_cons _)

/-- The root of the subtree is no other node. -/
theorem root_notMem (hf : L.Focus S inv h ctx (branch d c p a b)) :
    p ≠ L.head ∧ p ≠ L.nil ∧ p ∉ frameNodes ctx ∧ p ∉ a.inorder ∧ p ∉ b.inorder := by
  have hperm : (L.head :: L.nil :: (frameNodes ctx ++ (branch d c p a b).inorder)).Perm
      (p :: L.head :: L.nil :: (frameNodes ctx ++ (a.inorder ++ b.inorder))) := by
    refine ((((inorder_branch_perm d c p a b).append_left _).cons _).cons _).trans ?_
    refine ((List.perm_middle.cons _).cons _).trans ?_
    exact ((List.Perm.swap ..).cons _).trans (List.Perm.swap ..)
  have hnot := (List.nodup_cons.1 (hperm.nodup_iff.1 hf.nodup_frames)).1
  simpa only [List.mem_cons, List.mem_append, not_or, ne_eq] using hnot

theorem down (hf : L.Focus S inv h ctx (branch d c p a b)) :
    L.Focus S inv h (⟨c, p, d, b⟩ :: ctx) a := by
  obtain ⟨hred, hnear, hfar, ha, hb⟩ := repr_branch.1 hf.tree
  have hhole := hf.hole
  rw [ptr_branch] at hhole
  exact ⟨hf.inv, hf.nodup, hf.mem, hf.nil_black, hf.nil_child, hf.head_black, hnear,
    ⟨hred, hfar, hb, hhole, hf.above⟩, ha⟩

theorem up (hf : L.Focus S inv h (⟨c, p, d, b⟩ :: ctx) a) :
    L.Focus S inv h ctx (branch d c p a b) := by
  obtain ⟨hred, hfar, hb, hhole, habove⟩ := hf.above
  refine ⟨hf.inv, hf.nodup, hf.mem, hf.nil_black, hf.nil_child, hf.head_black, ?_, habove,
    repr_branch.2 ⟨hred, hf.hole, hfar, hf.tree, hb⟩⟩
  rw [ptr_branch]
  exact hhole

/-- What is read of the heap is the same. -/
theorem congr {S' : P → Prop} {inv' : H → Prop} (hf : L.Focus S inv h ctx t) (hinv : inv' h')
    (hS : ∀ q, S q → S' q) (hsame : ∀ q ∈ L.head :: L.nil :: (frameNodes ctx ++ t.inorder),
      L.red h' q = L.red h q ∧ ∀ e, L.child h' q e = L.child h q e) :
    L.Focus S' inv' h' ctx t := by
  have hhead := hsame _ List.mem_cons_self
  have hnil := hsame L.nil (List.mem_cons_of_mem _ List.mem_cons_self)
  have hrest : ∀ q ∈ frameNodes ctx ++ t.inorder, L.red h' q = L.red h q ∧
      ∀ e, L.child h' q e = L.child h q e := fun q hq =>
    hsame q (List.mem_cons_of_mem _ (List.mem_cons_of_mem _ hq))
  have htop : ∀ q ∈ L.head :: frameNodes ctx, ∀ e, L.child h' q e = L.child h q e := by
    intro q hq
    rcases List.mem_cons.1 hq with rfl | hq
    · exact hhead.2
    · exact (hrest q (List.mem_append_left _ hq)).2
  refine ⟨hinv, hf.nodup, fun p hp => hS p (hf.mem p hp), hnil.1.trans hf.nil_black,
    fun d => (hnil.2 d).trans (hf.nil_child d), hhead.1.trans hf.head_black,
    (htop _ top_mem _).trans hf.hole, ?_, ?_⟩
  · exact hf.above.congr hf.head_nodup (fun q hq => (hrest q (List.mem_append_left _ hq)).1)
      fun q hq e _ => htop q hq e
  · exact hf.tree.congr fun q hq => hrest q (List.mem_append_right _ hq)

variable [DecidableEq P]

/-- Colour the root of the subtree. -/
theorem paint (hL : L.Lawful S inv) (hf : L.Focus S inv h ctx (branch d c p a b)) (c' : Bool) :
    L.Focus S inv (L.setRed h p c') ctx (branch d c' p a b) := by
  obtain ⟨hhead, hnil, hframes, ha, hb⟩ := hf.root_notMem
  obtain ⟨_, hnear, hfar, hra, hrb⟩ := repr_branch.1 hf.tree
  have hp : S p := hf.mem_frames (by simp [mem_inorder_branch])
  have hchild : ∀ q, S q → ∀ e, L.child (L.setRed h p c') q e = L.child h q e :=
    fun q hq e => hL.child_setRed hf.inv hp hq
  have hred : ∀ q, S q → q ≠ p → L.red (L.setRed h p c') q = L.red h q := by
    intro q hq hne
    rw [hL.red_setRed hf.inv hp hq, if_neg hne]
  have hmem : ∀ q ∈ L.head :: frameNodes ctx, S q := by
    intro q hq
    rcases List.mem_cons.1 hq with rfl | hq
    · exact hL.head
    · exact hf.mem_frames (List.mem_append_left _ hq)
  have hinorder : (plug ctx (branch d c' p a b)).inorder =
      (plug ctx (branch d c p a b)).inorder := by
    rw [inorder_plug, inorder_plug]
    cases d <;> rfl
  have hsame : ∀ u : Tree P, (∀ q ∈ u.inorder, S q) → p ∉ u.inorder → L.Repr h u →
      L.Repr (L.setRed h p c') u := by
    intro u hu hpu hrepr
    exact hrepr.congr fun q hq =>
      ⟨hred q (hu q hq) fun heq => hpu (heq ▸ hq), hchild q (hu q hq)⟩
  refine ⟨hL.inv_setRed hf.inv hp, ?_, ?_, ?_, ?_, ?_, ?_, ?_, repr_branch.2 ⟨?_, ?_, ?_, ?_, ?_⟩⟩
  · rw [hinorder]
    exact hf.nodup
  · rw [hinorder]
    exact hf.mem
  · exact (hred _ hL.nil hnil.symm).trans hf.nil_black
  · exact fun e => (hchild _ hL.nil e).trans (hf.nil_child e)
  · exact (hred _ hL.head hhead.symm).trans hf.head_black
  · rw [hchild _ (hmem _ top_mem), hf.hole, ptr_branch, ptr_branch]
  · exact hf.above.congr hf.head_nodup
      (fun q hq => hred q (hf.mem_frames (List.mem_append_left _ hq)) fun heq => hframes (heq ▸ hq))
      fun q hq e _ => hchild q (hmem q hq) e
  · rw [hL.red_setRed hf.inv hp hp, if_pos rfl]
  · exact (hchild p hp d).trans hnear
  · exact (hchild p hp _).trans hfar
  · exact hsame a (fun q hq => hf.mem_frames (by simp [mem_inorder_branch, hq])) ha hra
  · exact hsame b (fun q hq => hf.mem_frames (by simp [mem_inorder_branch, hq])) hb hrb

/-- Three links change when `x` is lifted over `g`. -/
theorem rotate {c' : Bool} {g x : P} {o : Tree P} (hL : L.Lawful S inv)
    (hf : L.Focus S inv h ctx (branch d c g (branch d c' x a b) o)) :
    L.Focus S inv
      (L.setChild (L.setChild (L.setChild h g d (L.ptr b)) x d.op g) (L.top ctx) (topSide ctx) x)
      ctx (branch d c' x a (branch d c g b o)) := by
  obtain ⟨hghead, hgnil, hgframes, hgx, hgo⟩ := hf.root_notMem
  obtain ⟨hxhead, hxnil, hxframes, hxa, hxb⟩ := hf.down.root_notMem
  rw [mem_inorder_branch, not_or, not_or] at hgx
  obtain ⟨hgx, hga, hgb⟩ := hgx
  simp only [frameNodes, List.mem_cons, List.mem_append, not_or] at hxframes
  obtain ⟨hxg, hxo, hxctx⟩ := hxframes
  obtain ⟨hgred, hgnear, hgfar, hxrepr, ho⟩ := repr_branch.1 hf.tree
  obtain ⟨hxred, hxnear, hxfar, ha, hb⟩ := repr_branch.1 hxrepr
  have hinorder : (plug ctx (branch d c' x a (branch d c g b o))).inorder =
      (plug ctx (branch d c g (branch d c' x a b) o)).inorder := by
    rw [inorder_plug, inorder_plug, inorder_rotate]
  have hmemS : ∀ q ∈ frameNodes ctx ++ (branch d c g (branch d c' x a b) o).inorder, S q :=
    fun q hq => hf.mem_frames hq
  simp only [List.mem_append, mem_inorder_branch] at hmemS
  have hg : S g := hmemS g (by simp)
  have hx : S x := hmemS x (by simp)
  have hframes : ∀ q ∈ L.head :: frameNodes ctx, S q ∧ q ≠ g ∧ q ≠ x := by
    intro q hq
    rcases List.mem_cons.1 hq with rfl | hq
    · exact ⟨hL.head, hghead.symm, hxhead.symm⟩
    · exact ⟨hmemS q (.inl hq), fun heq => hgframes (heq ▸ hq), fun heq => hxctx (heq ▸ hq)⟩
  obtain ⟨htop, htopg, htopx⟩ := hframes _ top_mem
  have hnotTop : ∀ q, q ≠ L.head → q ∉ frameNodes ctx → q ≠ L.top ctx := by
    rintro q hne hnot rfl
    have hmem : L.top ctx ∈ L.head :: frameNodes ctx := top_mem
    rcases List.mem_cons.1 hmem with heq | hq
    · exact hne heq
    · exact hnot hq
  have hinv₁ := hL.inv_setChild hf.inv hg (d := d) (v := L.ptr b)
  have hinv₂ := hL.inv_setChild hinv₁ hx (d := d.op) (v := g)
  have hinv₃ := hL.inv_setChild hinv₂ htop (d := topSide ctx) (v := x)
  generalize hh' : L.setChild (L.setChild (L.setChild h g d (L.ptr b)) x d.op g) (L.top ctx)
    (topSide ctx) x = h' at *
  have hred : ∀ q, S q → L.red h' q = L.red h q := by
    intro q hq
    rw [← hh', hL.red_setChild hinv₂ htop hq, hL.red_setChild hinv₁ hx hq,
      hL.red_setChild hf.inv hg hq]
  have hchild : ∀ q, S q → ∀ e, L.child h' q e = if q = L.top ctx ∧ e = topSide ctx then x
      else if q = x ∧ e = d.op then g else if q = g ∧ e = d then L.ptr b else L.child h q e := by
    intro q hq e
    rw [← hh', hL.child_setChild hinv₂ htop hq, hL.child_setChild hinv₁ hx hq,
      hL.child_setChild hf.inv hg hq]
  have hother : ∀ q, S q → q ≠ L.top ctx → q ≠ x → q ≠ g → ∀ e, L.child h' q e = L.child h q e := by
    intro q hq hqtop hqx hqg e
    rw [hchild q hq, if_neg fun h => hqtop h.1, if_neg fun h => hqx h.1, if_neg fun h => hqg h.1]
  have hsame : ∀ u : Tree P, (∀ q ∈ u.inorder, S q) → (∀ q ∈ u.inorder, q ≠ L.top ctx) →
      x ∉ u.inorder → g ∉ u.inorder → L.Repr h u → L.Repr h' u := by
    intro u hu hutop hxu hgu hrepr
    refine hrepr.congr fun q hq => ⟨hred q (hu q hq), hother q (hu q hq) (hutop q hq) ?_ ?_⟩
    · exact fun heq => hxu (heq ▸ hq)
    · exact fun heq => hgu (heq ▸ hq)
  have hdisjoint := (List.nodup_append.1 (List.nodup_cons.1 (List.nodup_cons.1 hf.nodup_frames).2).2).2.2
  have hheadNot := (List.nodup_cons.1 hf.nodup_frames).1
  have hbelowTop : ∀ q ∈ (branch d c g (branch d c' x a b) o).inorder, q ≠ L.top ctx := by
    intro q hq
    refine hnotTop q (fun heq => hheadNot ?_) fun hqctx => hdisjoint q hqctx q hq rfl
    exact heq ▸ List.mem_cons_of_mem _ (List.mem_append_right _ hq)
  simp only [mem_inorder_branch] at hbelowTop
  refine ⟨hinv₃, ?_, ?_, ?_, ?_, ?_, ?_, ?_, repr_branch.2 ⟨?_, ?_, ?_, ?_, repr_branch.2
    ⟨?_, ?_, ?_, ?_, ?_⟩⟩⟩
  · rw [hinorder]
    exact hf.nodup
  · rw [hinorder]
    exact hf.mem
  · exact (hred _ hL.nil).trans hf.nil_black
  · intro e
    refine (hother _ hL.nil ?_ hxnil.symm hgnil.symm e).trans (hf.nil_child e)
    refine hnotTop _ (fun heq => hheadNot (heq ▸ List.mem_cons_self)) fun hq => ?_
    exact (List.nodup_cons.1 (List.nodup_cons.1 hf.nodup_frames).2).1 (List.mem_append_left _ hq)
  · exact (hred _ hL.head).trans hf.head_black
  · rw [hchild _ htop, if_pos ⟨rfl, rfl⟩, ptr_branch]
  · refine hf.above.congr hf.head_nodup (fun q hq => hred q (hframes q (.tail _ hq)).1) ?_
    intro q hq e hne
    obtain ⟨hSq, hqg, hqx⟩ := hframes q hq
    rw [hchild q hSq, if_neg hne, if_neg fun h => hqx h.1, if_neg fun h => hqg h.1]
  · exact (hred x hx).trans hxred
  · rw [hchild x hx, if_neg fun h => htopx h.1.symm, if_neg fun h => Dir.ne_op d h.2,
      if_neg fun h => hxg h.1]
    exact hxnear
  · rw [hchild x hx, if_neg fun h => htopx h.1.symm, if_pos ⟨rfl, rfl⟩, ptr_branch]
  · exact hsame a (fun q hq => hmemS q (by simp [hq])) (fun q hq => hbelowTop q (by simp [hq]))
      hxa hga ha
  · exact (hred g hg).trans hgred
  · rw [hchild g hg, if_neg fun h => htopg h.1.symm, if_neg fun h => hxg h.1.symm,
      if_pos ⟨rfl, rfl⟩]
  · rw [hchild g hg, if_neg fun h => htopg h.1.symm, if_neg fun h => hxg h.1.symm,
      if_neg fun h => Dir.op_ne d h.2]
    exact hgfar
  · exact hsame b (fun q hq => hmemS q (by simp [hq])) (fun q hq => hbelowTop q (by simp [hq]))
      hxb hgb hb
  · exact hsame o (fun q hq => hmemS q (by simp [hq])) (fun q hq => hbelowTop q (by simp [hq]))
      hxo hgo ho

/-- Hang a new leaf in an empty place. -/
theorem hang {m : P} (hL : L.Lawful S inv) (hf : L.Focus S inv h ctx .nil) (hm : S m)
    (hfresh : m ∉ L.head :: L.nil :: frameNodes ctx) (hred : L.red h m = true)
    (hchild : ∀ e, L.child h m e = L.nil) :
    L.Focus S inv (L.setChild h (L.top ctx) (topSide ctx) m) ctx (.node true m .nil .nil) := by
  have hperm : (L.head :: L.nil :: (plug ctx (.node true m .nil .nil)).inorder).Perm
      (m :: L.head :: L.nil :: frameNodes ctx) := by
    refine (((inorder_plug_perm ..).trans List.perm_append_comm).cons _ |>.cons _).trans ?_
    exact ((List.Perm.swap ..).cons _).trans (List.Perm.swap ..)
  have hnodup : (L.head :: L.nil :: frameNodes ctx).Nodup := by
    have hframes := hf.nodup_frames
    rwa [inorder, List.append_nil] at hframes
  have hnilNot : L.nil ∉ frameNodes ctx := (List.nodup_cons.1 (List.nodup_cons.1 hnodup).2).1
  have hheadNot : L.head ≠ L.nil := fun heq => (List.nodup_cons.1 hnodup).1 (by simp [heq])
  have hmem : ∀ q ∈ L.head :: frameNodes ctx, S q := by
    intro q hq
    rcases List.mem_cons.1 hq with rfl | hq
    · exact hL.head
    · exact hf.mem_frames (List.mem_append_left _ hq)
  have htop : S (L.top ctx) := hmem _ top_mem
  have hmtop : m ≠ L.top ctx := by
    rintro rfl
    have hmem : L.top ctx ∈ L.head :: frameNodes ctx := top_mem
    rcases List.mem_cons.1 hmem with heq | hq
    · exact hfresh (heq ▸ List.mem_cons_self)
    · exact hfresh (List.mem_cons_of_mem _ (List.mem_cons_of_mem _ hq))
  have hniltop : L.nil ≠ L.top ctx := by
    intro heq
    have hmem : L.top ctx ∈ L.head :: frameNodes ctx := top_mem
    rcases List.mem_cons.1 (heq ▸ hmem) with hnil | hq
    · exact hheadNot hnil.symm
    · exact hnilNot hq
  have hother : ∀ q, S q → q ≠ L.top ctx → ∀ e,
      L.child (L.setChild h (L.top ctx) (topSide ctx) m) q e = L.child h q e := by
    intro q hq hne e
    rw [hL.child_setChild hf.inv htop hq, if_neg fun h => hne h.1]
  have hsameRed : ∀ q, S q →
      L.red (L.setChild h (L.top ctx) (topSide ctx) m) q = L.red h q :=
    fun q hq => hL.red_setChild hf.inv htop hq
  refine ⟨hL.inv_setChild hf.inv htop, ?_, ?_, ?_, ?_, ?_, ?_, ?_, ?_⟩
  · exact hperm.nodup_iff.2 (List.nodup_cons.2 ⟨hfresh, hnodup⟩)
  · intro p hp
    have hp' := (inorder_plug_perm ..).mem_iff.1 hp
    rw [List.mem_append] at hp'
    rcases hp' with hp' | hp'
    · exact hmem p (List.mem_cons_of_mem _ hp')
    · obtain rfl : p = m := by simpa [inorder] using hp'
      exact hm
  · exact (hsameRed _ hL.nil).trans hf.nil_black
  · exact fun e => (hother _ hL.nil hniltop e).trans (hf.nil_child e)
  · exact (hsameRed _ hL.head).trans hf.head_black
  · rw [hL.child_setChild hf.inv htop htop, if_pos ⟨rfl, rfl⟩]
    rfl
  · refine hf.above.congr hf.head_nodup (fun q hq => hsameRed q (hmem q (.tail _ hq))) ?_
    intro q hq e hne
    rw [hL.child_setChild hf.inv htop (hmem q hq), if_neg hne]
  · refine ⟨(hsameRed m hm).trans hred, ?_, ?_, trivial, trivial⟩
    · exact (hother m hm hmtop _).trans (hchild _)
    · exact (hother m hm hmtop _).trans (hchild _)

omit [DecidableEq P] in
theorem to_root (hf : L.Focus S inv h ctx t) : L.Focus S inv h [] (plug ctx t) := by
  induction ctx generalizing t with
  | nil => exact hf
  | cons f ctx ih => exact ih hf.up

end Focus

end Links

end Pnet.Lib.RedBlack
