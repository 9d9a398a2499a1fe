import Pnet.Lib.Loop
import Pnet.Lib.RedBlackHeap

/-! Top-down insertion: one pass from the head to an empty place splits on its way every
black node that has two red children, and mends what that breaks with the last three
ancestors it has seen. -/
namespace Pnet.Lib.RedBlack
open Tree

variable {H P : Type}

/-- Where a key goes at a node, from its comparison with the node. -/
def dirOf (cmp : P → Int) (p : P) : Dir := if cmp p < 0 then .left else .right

structure Cursor (H P : Type) where
  heap : H
  temp : P
  greatGrandParent : P
  grandParent : P
  parent : P

namespace Links

variable (L : Links H P) (cmp : P → Int)

/-- Rotate around a node, along the path of the key; the root of the rotated subtree. -/
def rotate (h : H) (around : P) : H × P :=
  let child := L.child h around (dirOf cmp around)
  let grandChild := L.child h child (dirOf cmp child)
  let h := L.setChild h child (dirOf cmp child) (L.child h grandChild (dirOf cmp child).op)
  let h := L.setChild h grandChild (dirOf cmp child).op child
  (L.setChild h around (dirOf cmp around) grandChild, grandChild)

def recolour (h : H) (temp : P) : H :=
  let h := L.setRed h temp true
  let h := L.setRed h (L.child h temp .left) false
  L.setRed h (L.child h temp .right) false

def mend (c : Cursor H P) : Cursor H P :=
  if L.red c.heap c.parent then
    let h := L.setRed c.heap c.grandParent true
    let (h, parent) :=
      if dirOf cmp c.grandParent = dirOf cmp c.parent then (h, c.parent)
      else L.rotate cmp h c.grandParent
    let (h, temp) := L.rotate cmp h c.greatGrandParent
    { c with heap := L.setRed h temp false, temp := temp, parent := parent }
  else c

def split (c : Cursor H P) : Cursor H P := L.mend cmp { c with heap := L.recolour c.heap c.temp }

def isSplittable (h : H) (p : P) : Bool :=
  L.red h (L.child h p .left) && L.red h (L.child h p .right)

/-- One round; it fails at a node that is equal to the key. -/
def step (c : Cursor H P) : Except (Cursor H P) (Cursor H P) :=
  let c := { c with greatGrandParent := c.grandParent, grandParent := c.parent, parent := c.temp }
  if cmp c.temp = 0 then .error c
  else
    let c := { c with temp := L.child c.heap c.temp (dirOf cmp c.temp) }
    if L.isSplittable c.heap c.temp then .ok (L.split cmp c) else .ok c

/-- Hang the new leaf `m` below the last node seen. -/
def finish (c : Cursor H P) (m : P) : H :=
  let c := L.split cmp { c with heap := L.setChild c.heap c.parent (dirOf cmp c.parent) m }
  L.setRed c.heap (L.child c.heap L.head .right) false

end Links

/-! ### One rotation and two -/

/-- The path of the key leads here. -/
def AlongPath (cmp : P → Int) (ctx : List (Frame P)) : Prop := ∀ f ∈ ctx, dirOf cmp f.p = f.side

namespace Links

variable {L : Links H P} {S : P → Prop} {inv : H → Prop} {h : H} {ctx : List (Frame P)}
  {a b t : Tree P} {d : Dir} {c : Bool} {p : P} {cmp : P → Int}

theorem dirOf_top (hhead : 0 < cmp L.head) (hpath : AlongPath cmp ctx) :
    dirOf cmp (L.top ctx) = topSide ctx := by
  cases ctx with
  | nil => exact if_neg (show ¬ cmp L.head < 0 by omega)
  | cons f ctx => exact hpath f List.mem_cons_self

theorem Repr.red_ptr (hnil : L.red h L.nil = false) (ht : L.Repr h t) :
    L.red h (L.ptr t) = t.red := by
  cases t with
  | nil => exact hnil
  | node c p left right => exact ht.1

namespace Focus

theorem isSplittable (hf : L.Focus S inv h ctx t) :
    L.isSplittable h (L.ptr t) = t.splittable := by
  unfold Links.isSplittable Tree.splittable
  cases t with
  | nil => simp [ptr, sub, Tree.red, hf.nil_child, hf.nil_black]
  | node c p left right =>
    obtain ⟨_, hleft, hright, hl, hr⟩ := hf.tree
    rw [ptr, hleft, hright, hl.red_ptr hf.nil_black, hr.red_ptr hf.nil_black]
    rfl

theorem red_top (hf : L.Focus S inv h ctx t) :
    L.red h (L.top ctx) = (ctx.head?.map Frame.red).getD false := by
  cases ctx with
  | nil => exact hf.head_black
  | cons f ctx => exact hf.above.1

variable [DecidableEq P]

theorem rotate_top {c' : Bool} {g x : P} {o : Tree P} (hL : L.Lawful S inv)
    (hf : L.Focus S inv h ctx (branch d c g (branch d c' x a b) o))
    (htop : dirOf cmp (L.top ctx) = topSide ctx) (hg : dirOf cmp g = d) :
    (L.rotate cmp h (L.top ctx)).2 = x ∧
      L.Focus S inv (L.rotate cmp h (L.top ctx)).1 ctx (branch d c' x a (branch d c g b o)) := by
  have hhole := hf.hole
  rw [ptr_branch] at hhole
  obtain ⟨_, hgnear, _, hxrepr, _⟩ := repr_branch.1 hf.tree
  rw [ptr_branch] at hgnear
  obtain ⟨_, _, hxfar, _, _⟩ := repr_branch.1 hxrepr
  have hrotate : L.rotate cmp h (L.top ctx) =
      (L.setChild (L.setChild (L.setChild h g d (L.ptr b)) x d.op g) (L.top ctx) (topSide ctx) x,
        x) := by
    simp only [Links.rotate, htop, hhole, hg, hgnear, hxfar]
  rw [hrotate]
  exact ⟨rfl, hf.rotate hL⟩

theorem recolour (hL : L.Lawful S inv) (hf : L.Focus S inv h ctx t) (ht : t.splittable = true) :
    L.Focus S inv (L.recolour h (L.ptr t)) ctx t.split := by
  cases t with
  | nil => cases ht
  | node c p left right =>
    have hredl : left.red = true := red_sub_of_splittable ht .left
    have hredr : right.red = true := red_sub_of_splittable ht .right
    obtain ⟨cl, pl, hl⟩ := eq_branch .left (ne_nil_of_red hredl)
    obtain ⟨cr, pr, hr⟩ := eq_branch .right (ne_nil_of_red hredr)
    generalize left.sub .left = ll, left.sub Dir.left.op = lr at hl
    generalize right.sub .right = rr, right.sub Dir.right.op = rl at hr
    subst hl hr
    have h₁ : L.Focus S inv _ ctx (branch .left true p _ _) :=
      paint (d := .left) hL hf true
    have h₂ : L.Focus S inv _ ctx (branch .left true p _ _) := (paint hL h₁.down false).up
    have h₃ : L.Focus S inv _ ctx (branch .right true p _ _) :=
      (paint hL (down (d := .right) h₂) false).up
    have hleft : L.child (L.setRed h p true) p .left = pl := by
      simpa using (repr_branch.1 h₁.tree).2.1
    have hright : L.child (L.setRed (L.setRed h p true) pl false) p .right = pr := by
      have hrepr := (repr_branch.1 h₂.tree).2.2.1
      rwa [ptr_branch] at hrepr
    simp only [Links.recolour, ptr, hleft, hright]
    exact h₃

/-- Splitting `nil` changes nothing. -/
theorem recolour_nil (hL : L.Lawful S inv) (hf : L.Focus S inv h ctx t) :
    L.Focus S inv (L.recolour h L.nil) ctx t := by
  have hinv₁ := hL.inv_setRed hf.inv hL.nil (c := true)
  have hleft : L.child (L.setRed h L.nil true) L.nil .left = L.nil := by
    rw [hL.child_setRed hf.inv hL.nil hL.nil, hf.nil_child]
  have hinv₂ := hL.inv_setRed hinv₁ hL.nil (c := false)
  have hright : L.child (L.setRed (L.setRed h L.nil true) L.nil false) L.nil .right = L.nil := by
    rw [hL.child_setRed hinv₁ hL.nil hL.nil, hL.child_setRed hf.inv hL.nil hL.nil, hf.nil_child]
  simp only [Links.recolour, hleft, hright]
  refine hf.congr (hL.inv_setRed hinv₂ hL.nil) (fun _ hq => hq) fun q hq => ?_
  have hq' : S q := by
    simp only [List.mem_cons] at hq
    obtain rfl | rfl | hq := hq
    · exact hL.head
    · exact hL.nil
    · exact hf.mem_frames hq
  constructor
  · rw [hL.red_setRed hinv₂ hL.nil hq', hL.red_setRed hinv₁ hL.nil hq',
      hL.red_setRed hf.inv hL.nil hq']
    by_cases heq : q = L.nil
    · rw [if_pos heq, heq, hf.nil_black]
    · simp only [if_neg heq]
  · intro e
    rw [hL.child_setRed hinv₂ hL.nil hq', hL.child_setRed hinv₁ hL.nil hq',
      hL.child_setRed hf.inv hL.nil hq']

omit [DecidableEq P] in
theorem red_top_of_mendable (hf : L.Focus S inv h ctx t) (hmend : Mendable ctx)
    (hblack : ∀ x g rest, ctx = x :: g :: rest → x.red = false) :
    L.red h (L.top ctx) = false := by
  rw [hf.red_top]
  cases ctx with
  | nil => rfl
  | cons x ctx =>
    change x.red = false
    cases hx : x.red with
    | false => rfl
    | true =>
      obtain ⟨g, rest, rfl, _⟩ := hmend x ctx rfl hx
      exact hx.symm.trans (hblack x g rest rfl)

theorem mend {cur : Cursor H P} (hL : L.Lawful S inv) (hhead : 0 < cmp L.head)
    (hf : L.Focus S inv cur.heap ctx t) (ht : t.red = true) (hpath : AlongPath cmp ctx)
    (hmend : Mendable ctx) (hparent : cur.parent = L.top ctx)
    (hgrand : cur.grandParent = L.top ctx.tail)
    (hgreat : cur.greatGrandParent = L.top ctx.tail.tail) :
    L.Focus S inv (L.mend cmp cur).heap (fixup ctx t).1 (fixup ctx t).2 ∧
      (cur.temp = L.ptr t → (L.mend cmp cur).temp = L.ptr (fixup ctx t).2) := by
  rcases fixup_cases ctx (ne_nil_of_red ht) with ⟨hsame, hblack⟩ |
    ⟨x, d, b, c, g, o, rest, rfl, hfix⟩ | ⟨x, d, b, c, g, o, rest, c', u, rfl, hu, hfix⟩
  · have hred := hf.red_top_of_mendable hmend hblack
    rw [hsame, Links.mend, hparent, hred]
    exact ⟨hf, id⟩
  · have hx : dirOf cmp x = d := hpath ⟨true, x, d, b⟩ (by simp)
    have hg : dirOf cmp g = d := hpath ⟨c, g, d, o⟩ (by simp)
    have hrest : AlongPath cmp rest := fun f hf => hpath f (by simp [hf])
    have hred : L.red cur.heap x = true := hf.red_top
    have hpaint := hf.up.up.paint hL true
    have hrotate := hpaint.rotate_top hL (dirOf_top hhead hrest) hg
    have hdone := hrotate.2.paint hL false
    change cur.parent = x at hparent
    change cur.grandParent = g at hgrand
    change cur.greatGrandParent = L.top rest at hgreat
    rw [hfix]
    simp only [Links.mend, hparent, hred, hgrand, hgreat, hx, hg, ↓reduceIte, hrotate.1]
    exact ⟨hdone, fun _ => ptr_branch.symm⟩
  · have hx : dirOf cmp x = d := hpath ⟨true, x, d, b⟩ (by simp)
    have hg : dirOf cmp g = d.op := hpath ⟨c, g, d.op, o⟩ (by simp)
    have hrest : AlongPath cmp rest := fun f hf => hpath f (by simp [hf])
    have hred : L.red cur.heap x = true := hf.red_top
    have hpaint := (hf.up.up.paint hL true).down
    have hinner : t = branch d c' u (t.sub d) (t.sub d.op) := hu.trans branch_op
    generalize t.sub d = near, t.sub d.op = far at *
    subst hinner
    have hg' : dirOf cmp (L.top (⟨true, g, d.op, o⟩ :: rest)) = d.op := hg
    have hrotate₁ := hpaint.rotate_top hL hg' hx
    have hlift := hrotate₁.2.up
    rw [← branch_op (p := u)] at hlift
    have hrotate₂ := hlift.rotate_top hL (dirOf_top hhead hrest) hg
    have hdone := hrotate₂.2.paint hL false
    change cur.parent = x at hparent
    change cur.grandParent = g at hgrand
    change cur.greatGrandParent = L.top rest at hgreat
    change (L.rotate cmp _ (L.top rest)).2 = u ∧ _ at hrotate₂
    rw [hfix]
    simp only [Links.mend, hparent, hred, hgrand, hgreat, hx, hg, ↓reduceIte, Dir.op_ne]
    change L.Focus S inv (L.setRed _ (L.rotate cmp (L.rotate cmp _ g).1 (L.top rest)).2 false) _ _ ∧ _
    rw [show (L.rotate cmp (L.rotate cmp (L.setRed cur.heap g true) g).1 (L.top rest)).2 = u from
      hrotate₂.1]
    exact ⟨hdone, fun _ => ptr_branch.symm⟩

end Focus

end Links

/-! ### The path of the key -/

section Path

variable (cmp : P → Int)

/-- The child that the key goes to. -/
def toward : Tree P → Tree P
  | .nil => .nil
  | .node c p left right => (Tree.node c p left right).sub (dirOf cmp p)

variable {cmp} {ctx : List (Frame P)} {a b t : Tree P} {c : Bool} {d : Dir} {p : P} {n bound : Nat}

theorem toward_branch (hd : dirOf cmp p = d) : toward cmp (branch d c p a b) = a := by
  subst hd
  have h : ∀ e, dirOf cmp p = e → toward cmp (branch e c p a b) = a := by
    intro e he
    cases e with
    | left => simp [branch, toward, he, sub]
    | right => simp [branch, toward, he, sub]
  exact h _ rfl

variable (cmp) in
theorem exists_toward_eq_sub (t : Tree P) : ∃ d, toward cmp t = t.sub d := by
  cases t with
  | nil => exact ⟨.left, rfl⟩
  | node c p left right => exact ⟨_, rfl⟩

variable (cmp) in
theorem exists_branch_toward (ht : t ≠ .nil) :
    ∃ c p b, t = branch (dirOf cmp p) c p (toward cmp t) b := by
  cases t with
  | nil => exact absurd rfl ht
  | node c p left right =>
    refine ⟨c, p, (Tree.node c p left right).sub (dirOf cmp p).op, ?_⟩
    change _ = branch _ c p ((Tree.node c p left right).sub (dirOf cmp p)) _
    cases dirOf cmp p <;> rfl

variable (cmp) in
/-- At the head of the loop, with the parent and the grandparent known. A red node here can
be the parent of another one, after a split, only where that is mendable. -/
structure Ready (ctx : List (Frame P)) (t : Tree P) : Prop where
  calm : t.splittable = false
  room : t.red = true → (∃ f rest, ctx = f :: rest ∧ f.other.red = false) ∨
    (toward cmp t ≠ .nil ∧ (toward cmp t).splittable = false)
  leaf : t = .nil → Mendable ctx

variable (cmp) in
/-- After a rotation: the next two rounds do not split, so that the ancestors it left
wrong are forgotten in time. -/
structure Settled (bound : Nat) (t : Tree P) : Prop where
  first : (toward cmp t).splittable = false
  second : toward cmp (toward cmp t) ≠ .nil
  calm : (toward cmp (toward cmp t)).splittable = false
  black : (toward cmp (toward cmp t)).red = false
  size : (toward cmp (toward cmp t)).size < bound

theorem size_sub_lt (ht : t ≠ .nil) (d : Dir) : (t.sub d).size < t.size := by
  obtain ⟨c, p, hbranch⟩ := eq_branch d ht
  have hsize := congrArg Tree.size hbranch
  rw [size_branch] at hsize
  omega

/-- What the children of a node are once it is split. -/
theorem sub_split_spec (ha : RB a n) (hsplit : a.splittable = true) (d : Dir) :
    a.split.sub d ≠ .nil ∧ (a.split.sub d).red = false ∧ (a.split.sub d).splittable = false ∧
      (a.split.sub d).size < a.size := by
  have hred := red_sub_of_splittable hsplit d
  have hne : a ≠ .nil := by
    rintro rfl
    cases hsplit
  obtain ⟨c, p, hbranch⟩ := eq_branch d hne
  obtain ⟨k, _, hsub, _⟩ := rb_branch.1 (hbranch ▸ ha)
  rw [sub_split, splittable_blacken, size_blacken]
  exact ⟨blacken_ne_nil (ne_nil_of_red hred), red_blacken, hsub.not_splittable_of_red hred,
    size_sub_lt hne d⟩

theorem ready_descend (h : Ready cmp ctx t) (ht : t = branch d c p (toward cmp t) b)
    (hcalm : (toward cmp t).splittable = false) :
    Ready cmp (⟨c, p, d, b⟩ :: ctx) (toward cmp t) := by
  refine ⟨hcalm, fun hred => .inl ⟨_, _, rfl, ?_⟩, ?_⟩
  · cases hb : b.red with
    | false => rfl
    | true =>
      have hboth : t.splittable = true := by
        rw [ht]
        unfold splittable
        cases d with
        | left => rw [Bool.and_eq_true]; exact ⟨hred, hb⟩
        | right => rw [Bool.and_eq_true]; exact ⟨hb, hred⟩
      rw [h.calm] at hboth
      cases hboth
  · rintro hnil x rest ⟨⟩ hx
    change c = true at hx
    have hred : t.red = true := by rw [ht, red_branch, hx]
    rcases h.room hred with ⟨g, rest, rfl, hother⟩ | ⟨hne, _⟩
    · exact ⟨g, rest, rfl, hother⟩
    · exact absurd hnil hne

theorem mendable_of_ready (h : Ready cmp ctx t) (ht : t = branch d c p (toward cmp t) b)
    (hsplit : (toward cmp t).splittable = true) : Mendable (⟨c, p, d, b⟩ :: ctx) := by
  rintro x rest ⟨⟩ hx
  change c = true at hx
  have hred : t.red = true := by rw [ht, red_branch, hx]
  rcases h.room hred with ⟨g, rest, rfl, hother⟩ | ⟨_, hnot⟩
  · exact ⟨g, rest, rfl, hother⟩
  · rw [hsplit] at hnot
    cases hnot

/-- A split below a black parent. -/
theorem ready_split (ha : RB a n) (hsplit : a.splittable = true) : Ready cmp ctx a.split := by
  obtain ⟨d, hd⟩ := exists_toward_eq_sub cmp a.split
  obtain ⟨hne, _, hcalm, _⟩ := sub_split_spec ha hsplit d
  refine ⟨not_splittable_of_black (sub_split_spec ha hsplit .left).2.1, fun _ => .inr ?_, ?_⟩
  · rw [hd]
    exact ⟨hne, hcalm⟩
  · intro hnil
    rw [hnil] at hne
    exact absurd (by cases d <;> rfl) hne

/-- A split below a red parent. -/
theorem settled_fixup (ha : RB a n) (hsplit : a.splittable = true)
    (hpath : AlongPath cmp (⟨true, p, d, b⟩ :: ctx)) (hmend : Mendable (⟨true, p, d, b⟩ :: ctx)) :
    Settled cmp a.size (fixup (⟨true, p, d, b⟩ :: ctx) a.split).2 := by
  have hspec := sub_split_spec ha hsplit
  generalize a.split = t at *
  have hcalm : t.splittable = false := not_splittable_of_black (hspec .left).2.1
  have hne : t ≠ .nil := fun hnil => (hspec .left).1 (by rw [hnil]; rfl)
  obtain ⟨g, rest, hcons, _⟩ := hmend _ _ rfl rfl
  rcases fixup_cases (⟨true, p, d, b⟩ :: ctx) hne with ⟨_, hblack⟩ |
    ⟨x, d', b', c, g, o, rest, hctx, hfix⟩ | ⟨x, d', b', c, g, o, rest, c', u, hctx, _, hfix⟩
  · cases hblack _ g rest (by rw [hcons])
  · rw [hctx] at hpath
    have hx : dirOf cmp x = d' := hpath ⟨true, x, d', b'⟩ (by simp)
    rw [hfix]
    obtain ⟨e, he⟩ := exists_toward_eq_sub cmp t
    have htoward : toward cmp (branch d' false x t (branch d' true g b' o)) = t := toward_branch hx
    obtain ⟨hne', hblack, hcalm', hsize⟩ := hspec e
    constructor <;> simp only [htoward, he] <;> assumption
  · rw [hctx] at hpath
    have hx : dirOf cmp x = d' := hpath ⟨true, x, d', b'⟩ (by simp)
    have hg : dirOf cmp g = d'.op := hpath ⟨c, g, d'.op, o⟩ (by simp)
    rw [hfix]
    by_cases hu : dirOf cmp u = d'.op
    · obtain ⟨hne', hblack, hcalm', hsize⟩ := hspec d'.op
      have hfirst : (branch d' true x (t.sub d'.op) b').splittable = false :=
        not_splittable_of_black (d := d') (by rwa [sub_branch])
      constructor <;> simp only [toward_branch hu, toward_branch hx] <;> assumption
    · have hu' : dirOf cmp u = d' := by rw [Dir.eq_op_of_ne hu, Dir.op_op]
      obtain ⟨hne', hblack, hcalm', hsize⟩ := hspec d'
      have hfirst : (branch d'.op true g (t.sub d') o).splittable = false :=
        not_splittable_of_black (d := d'.op) (by rwa [sub_branch])
      rw [← branch_op (d := d'.op), Dir.op_op]
      constructor <;> simp only [toward_branch hu', toward_branch hg] <;> assumption

end Path

end Pnet.Lib.RedBlack
