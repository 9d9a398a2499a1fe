import Mathlib.Algebra.Group.Nat.Defs
import Mathlib.Data.List.Nodup

/-! Red-black trees seen from a place inside them: the subtree there, and the frames
from its parent up to the root. `fixup` mends a red node below a red parent with one
rotation or two. -/
namespace Pnet.Lib.RedBlack

inductive Dir where
  | left
  | right
deriving DecidableEq

def Dir.op : Dir → Dir
  | .left => .right
  | .right => .left

@[simp] theorem Dir.op_op (d : Dir) : d.op.op = d := by cases d <;> rfl

@[simp] theorem Dir.op_ne (d : Dir) : d.op ≠ d := by cases d <;> decide

@[simp] theorem Dir.ne_op (d : Dir) : d ≠ d.op := by cases d <;> decide

theorem Dir.eq_op_of_ne {d e : Dir} (h : e ≠ d) : e = d.op := by
  cases d <;> cases e <;> first | rfl | exact absurd rfl h

inductive Tree (P : Type) where
  | nil
  | node (red : Bool) (p : P) (left right : Tree P)

/-- A node above the place: its colour, the side the place is on, and its other subtree. -/
structure Frame (P : Type) where
  red : Bool
  p : P
  side : Dir
  other : Tree P

variable {P : Type}

namespace Tree

def red : Tree P → Bool
  | nil => false
  | node red _ _ _ => red

def sub : Tree P → Dir → Tree P
  | nil, _ => nil
  | node _ _ left _, .left => left
  | node _ _ _ right, .right => right

/-- A node with `near` on the side `d`. -/
def branch (d : Dir) (red : Bool) (p : P) (near far : Tree P) : Tree P :=
  match d with
  | .left => node red p near far
  | .right => node red p far near

def inorder : Tree P → List P
  | nil => []
  | node _ p left right => left.inorder ++ p :: right.inorder

def size : Tree P → Nat
  | nil => 0
  | node _ _ left right => left.size + right.size + 1

def height : Tree P → Nat
  | nil => 0
  | node _ _ left right => max left.height right.height + 1

def blacken : Tree P → Tree P
  | nil => nil
  | node _ p left right => node false p left right

/-- Both children are red. -/
def splittable (t : Tree P) : Bool := (t.sub .left).red && (t.sub .right).red

/-- As a split leaves it: red, with black children. -/
def split : Tree P → Tree P
  | nil => nil
  | node _ p left right => node true p left.blacken right.blacken

variable {d e : Dir} {c : Bool} {p : P} {a b t : Tree P}

@[simp] theorem sub_branch : (branch d c p a b).sub d = a := by cases d <;> rfl

@[simp] theorem red_branch : (branch d c p a b).red = c := by cases d <;> rfl

theorem branch_op : branch d.op c p b a = branch d c p a b := by cases d <;> rfl

/-- A tree that is not empty, with either side as the near one. -/
theorem eq_branch (d : Dir) : ∀ {t : Tree P}, t ≠ nil →
    ∃ c p, t = branch d c p (t.sub d) (t.sub d.op)
  | nil, h => absurd rfl h
  | node c p left right, _ => ⟨c, p, by cases d <;> rfl⟩

theorem size_branch : (branch d c p a b).size = a.size + b.size + 1 := by
  cases d with
  | left => rfl
  | right => exact congrArg (· + 1) (Nat.add_comm ..)

theorem mem_inorder_branch {q : P} :
    q ∈ (branch d c p a b).inorder ↔ q = p ∨ q ∈ a.inorder ∨ q ∈ b.inorder := by
  cases d <;> simp only [branch, inorder, List.mem_append, List.mem_cons] <;> tauto

theorem blacken_ne_nil (h : t ≠ nil) : t.blacken ≠ nil := by
  cases t with
  | nil => exact absurd rfl h
  | node c p left right => nofun

@[simp] theorem red_blacken : t.blacken.red = false := by cases t <;> rfl

@[simp] theorem inorder_blacken : t.blacken.inorder = t.inorder := by cases t <;> rfl

@[simp] theorem size_blacken : t.blacken.size = t.size := by cases t <;> rfl

@[simp] theorem splittable_blacken : t.blacken.splittable = t.splittable := by cases t <;> rfl

@[simp] theorem sub_split : t.split.sub d = (t.sub d).blacken := by
  cases t with
  | nil => cases d <;> rfl
  | node c p left right => cases d <;> rfl

@[simp] theorem inorder_split : t.split.inorder = t.inorder := by
  cases t with
  | nil => rfl
  | node c p left right => simp only [split, inorder, inorder_blacken]

@[simp] theorem size_split : t.split.size = t.size := by
  cases t with
  | nil => rfl
  | node c p left right => simp only [split, size, size_blacken]

theorem red_sub_of_splittable (h : t.splittable = true) (d : Dir) : (t.sub d).red = true := by
  unfold splittable at h
  rw [Bool.and_eq_true] at h
  cases d with
  | left => exact h.1
  | right => exact h.2

theorem not_splittable_of_black (h : (t.sub d).red = false) : t.splittable = false := by
  unfold splittable
  cases d with
  | left => rw [h, Bool.false_and]
  | right => rw [h, Bool.and_false]

theorem ne_nil_of_red (h : t.red = true) : t ≠ nil := by
  intro ht
  rw [ht] at h
  cases h

/-! ### Balance -/

/-- No red node has a red child, and every path down meets `n` black nodes. -/
inductive RB : Tree P → Nat → Prop
  | nil : RB nil 0
  | red {p : P} {left right : Tree P} {n : Nat} : RB left n → RB right n → left.red = false →
      right.red = false → RB (node true p left right) n
  | black {p : P} {left right : Tree P} {n : Nat} : RB left n → RB right n →
      RB (node false p left right) (n + 1)

def heightAbove (red : Bool) (n : Nat) : Nat := if red then n else n + 1

variable {n : Nat}

theorem rb_branch : RB (branch d c p a b) n ↔ ∃ k, n = heightAbove c k ∧ RB a k ∧ RB b k ∧
    (c = true → a.red = false ∧ b.red = false) := by
  constructor
  · intro h
    cases d with
    | left =>
      cases h with
      | red ha hb hra hrb => exact ⟨n, rfl, ha, hb, fun _ => ⟨hra, hrb⟩⟩
      | @black _ _ _ k ha hb => exact ⟨k, rfl, ha, hb, nofun⟩
    | right =>
      cases h with
      | red hb ha hrb hra => exact ⟨n, rfl, ha, hb, fun _ => ⟨hra, hrb⟩⟩
      | @black _ _ _ k hb ha => exact ⟨k, rfl, ha, hb, nofun⟩
  · intro h
    obtain ⟨k, rfl, ha, hb, hred⟩ := h
    cases c with
    | true =>
      obtain ⟨hra, hrb⟩ := hred rfl
      cases d with
      | left => exact .red ha hb hra hrb
      | right => exact .red hb ha hrb hra
    | false =>
      cases d with
      | left => exact .black ha hb
      | right => exact .black hb ha

theorem RB.sub_black (h : RB t n) (hred : t.red = true) (d : Dir) : (t.sub d).red = false := by
  obtain ⟨c, p, ht⟩ := eq_branch d (ne_nil_of_red hred)
  rw [ht] at h hred
  obtain ⟨k, _, _, _, hsub⟩ := rb_branch.1 h
  exact (hsub (by rwa [red_branch] at hred)).1

theorem RB.not_splittable_of_red (h : RB t n) (hred : t.red = true) : t.splittable = false :=
  not_splittable_of_black (h.sub_black hred .left)

theorem RB.blacken (h : RB t n) : RB t.blacken (if t.red then n + 1 else n) := by
  cases h with
  | nil => exact .nil
  | red ha hb _ _ => exact .black ha hb
  | black ha hb => exact .black ha hb

theorem RB.split (h : RB t n) (hsplit : t.splittable = true) : RB t.split n ∧ t.red = false := by
  have hblack : t.red = false := by
    cases hred : t.red with
    | false => rfl
    | true =>
      rw [h.not_splittable_of_red hred] at hsplit
      cases hsplit
  refine ⟨?_, hblack⟩
  cases h with
  | nil => exact .nil
  | red ha hb _ _ => cases hblack
  | @black p left right n ha hb =>
    have hleft : left.red = true := red_sub_of_splittable hsplit .left
    have hright : right.red = true := red_sub_of_splittable hsplit .right
    have hl := ha.blacken
    have hr := hb.blacken
    rw [if_pos hleft] at hl
    rw [if_pos hright] at hr
    exact .red hl hr red_blacken red_blacken

theorem length_inorder (t : Tree P) : t.inorder.length = t.size := by
  induction t with
  | nil => rfl
  | node c p left right ihl ihr =>
    rw [inorder, size, List.length_append, List.length_cons, ihl, ihr]
    rfl

theorem height_le_size (t : Tree P) : t.height ≤ t.size := by
  induction t with
  | nil => exact Nat.le_refl 0
  | node c p left right ihl ihr =>
    rw [height, size]
    omega

/-- At least every other node of a path is black. -/
theorem RB.height_le (h : RB t n) : t.height ≤ 2 * n + t.red.toNat := by
  induction h with
  | nil => exact Nat.le_refl 0
  | red _ _ hleft hright ihl ihr =>
    rw [hleft] at ihl
    rw [hright] at ihr
    exact Nat.succ_le_succ (Nat.max_le.2 ⟨ihl, ihr⟩)
  | @black p left right n _ _ ihl ihr =>
    have hl := left.red.toNat_le
    have hr := right.red.toNat_le
    rw [height]
    omega

/-- The black nodes alone would fill a tree. -/
theorem RB.pow_le (h : RB t n) : 2 ^ n ≤ t.size + 1 := by
  induction h with
  | nil => exact Nat.le_refl 1
  | red _ _ _ _ ihl ihr =>
    rw [size]
    omega
  | black _ _ ihl ihr =>
    rw [size, Nat.pow_succ]
    omega

theorem RB.height_le_log (h : RB t n) {m : Nat} (hsize : t.size ≤ m) :
    t.height ≤ 2 * Nat.log2 (m + 1) + 1 := by
  have hlog : n ≤ Nat.log2 (m + 1) :=
    (Nat.le_log2 (Nat.succ_ne_zero m)).2 (Nat.le_trans h.pow_le (Nat.succ_le_succ hsize))
  have hheight := h.height_le
  have hred := t.red.toNat_le
  omega

end Tree

open Tree

/-! ### A tree around the place -/

/-- The whole tree. -/
def plug : List (Frame P) → Tree P → Tree P
  | [], t => t
  | f :: ctx, t => plug ctx (branch f.side f.red f.p t f.other)

/-- The nodes that come before those at the place. -/
def before : List (Frame P) → List P
  | [] => []
  | f :: ctx => before ctx ++ match f.side with
    | .left => []
    | .right => f.other.inorder ++ [f.p]

def after : List (Frame P) → List P
  | [] => []
  | f :: ctx => (match f.side with
    | .left => f.p :: f.other.inorder
    | .right => []) ++ after ctx

theorem inorder_plug (ctx : List (Frame P)) (t : Tree P) :
    (plug ctx t).inorder = before ctx ++ t.inorder ++ after ctx := by
  induction ctx generalizing t with
  | nil => simp [plug, before, after]
  | cons f ctx ih =>
    rw [plug, ih]
    cases hside : f.side with
    | left => simp [branch, inorder, before, after, hside]
    | right => simp [branch, inorder, before, after, hside]

/-- Around a subtree whose root has this colour, and which meets `n` black nodes, there is
a balanced tree that meets `total`. -/
def Fits (total : Nat) : List (Frame P) → Bool → Nat → Prop
  | [], _, n => n = total
  | f :: ctx, red, n => RB f.other n ∧ (f.red = true → red = false ∧ f.other.red = false) ∧
      Fits total ctx f.red (heightAbove f.red n)

def Sound (total : Nat) (ctx : List (Frame P)) (t : Tree P) : Prop :=
  ∃ n, RB t n ∧ Fits total ctx t.red n

variable {ctx : List (Frame P)} {t a b : Tree P} {d : Dir} {c : Bool} {p : P} {n total : Nat}

theorem sound_down : Sound total ctx (branch d c p a b) ↔ Sound total (⟨c, p, d, b⟩ :: ctx) a := by
  constructor
  · intro h
    obtain ⟨n, hrb, hfits⟩ := h
    obtain ⟨k, rfl, ha, hb, hred⟩ := rb_branch.1 hrb
    rw [red_branch] at hfits
    exact ⟨k, ha, hb, hred, hfits⟩
  · intro h
    obtain ⟨k, ha, hb, hred, hfits⟩ := h
    refine ⟨heightAbove c k, rb_branch.2 ⟨k, rfl, ha, hb, hred⟩, ?_⟩
    rw [red_branch]
    exact hfits

theorem sound_plug : Sound total ctx t ↔ RB (plug ctx t) total := by
  induction ctx generalizing t with
  | nil =>
    constructor
    · intro h
      obtain ⟨n, hrb, rfl⟩ := h
      exact hrb
    · intro h
      exact ⟨total, h, rfl⟩
  | cons f ctx ih =>
    rw [plug, ← ih]
    exact sound_down.symm

/-! ### Mending -/

/-- The red node at the place has a red parent only where one rotation, or two, can
mend it: below a black node whose other subtree is black. -/
def Mendable (ctx : List (Frame P)) : Prop :=
  ∀ x rest, ctx = x :: rest → x.red = true → ∃ g rest', rest = g :: rest' ∧ g.other.red = false

/-- Lift the parent of the place over its grandparent, or the place itself when the two
are on different sides. -/
def fixup : List (Frame P) → Tree P → List (Frame P) × Tree P
  | ⟨true, x, d, b⟩ :: ⟨_, g, e, o⟩ :: rest, .node c u left right =>
    let t := .node c u left right
    if e = d then (rest, branch d false x t (branch d true g b o))
    else
      (rest, branch e false u (branch d true x (t.sub e) b) (branch e true g (t.sub d) o))
  | ctx, t => (ctx, t)

theorem inorder_rotate {c c' c₁ c₂ : Bool} {x g : P} {o : Tree P} :
    (branch d c x t (branch d c' g b o)).inorder =
      (branch d c₁ g (branch d c₂ x t b) o).inorder := by
  cases d with
  | left => simp [branch, inorder]
  | right => simp [branch, inorder]

theorem inorder_rotate_op {c c' c₁ c₂ c₃ c₄ : Bool} {x g u : P} {o near far : Tree P} :
    (branch d.op c u (branch d c' x near b) (branch d.op c₁ g far o)).inorder =
      (branch d.op c₂ g (branch d c₃ x (branch d.op c₄ u near far) b) o).inorder := by
  cases d with
  | left => simp [branch, inorder, Dir.op]
  | right => simp [branch, inorder, Dir.op]

/-- The cases of `fixup`: it does nothing, or lifts the parent, or lifts the place. -/
theorem fixup_cases (ctx : List (Frame P)) (ht : t ≠ .nil) :
    (fixup ctx t = (ctx, t) ∧ ∀ x g rest, ctx = x :: g :: rest → x.red = false) ∨
    (∃ x d b c g o rest, ctx = ⟨true, x, d, b⟩ :: ⟨c, g, d, o⟩ :: rest ∧
      fixup ctx t = (rest, branch d false x t (branch d true g b o))) ∨
    (∃ x d b c g o rest c' u, ctx = ⟨true, x, d, b⟩ :: ⟨c, g, d.op, o⟩ :: rest ∧
      t = branch d.op c' u (t.sub d.op) (t.sub d) ∧
      fixup ctx t =
        (rest, branch d.op false u (branch d true x (t.sub d.op) b)
          (branch d.op true g (t.sub d) o))) := by
  cases t with
  | nil => exact absurd rfl ht
  | node c' u left right =>
    cases ctx with
    | nil =>
      refine .inl ⟨rfl, ?_⟩
      rintro _ _ _ ⟨⟩
    | cons x ctx =>
      obtain ⟨red, x, d, b⟩ := x
      cases ctx with
      | nil =>
        refine .inl ⟨by cases red <;> rfl, ?_⟩
        rintro _ _ _ ⟨⟩
      | cons g rest =>
        obtain ⟨c, g, e, o⟩ := g
        cases red with
        | false =>
          refine .inl ⟨rfl, ?_⟩
          rintro _ _ _ ⟨⟩
          rfl
        | true =>
          by_cases he : e = d
          · subst he
            exact .inr (.inl ⟨x, e, b, c, g, o, rest, rfl, if_pos rfl⟩)
          · obtain rfl := Dir.eq_op_of_ne he
            refine .inr (.inr ⟨x, d, b, c, g, o, rest, c', u, rfl, ?_, if_neg he⟩)
            cases d <;> rfl

theorem inorder_fixup (ctx : List (Frame P)) (ht : t ≠ .nil) :
    (plug (fixup ctx t).1 (fixup ctx t).2).inorder = (plug ctx t).inorder := by
  rcases fixup_cases ctx ht with ⟨hsame, -⟩ | ⟨x, d, b, c, g, o, rest, rfl, hfix⟩ |
    ⟨x, d, b, c, g, o, rest, c', u, rfl, hu, hfix⟩
  · rw [hsame]
  · rw [hfix, plug, plug, inorder_plug, inorder_plug, inorder_rotate]
  · have hrotate : (branch d.op false u (branch d true x (t.sub d.op) b)
        (branch d.op true g (t.sub d) o)).inorder =
          (branch d.op c g (branch d true x (branch d.op c' u (t.sub d.op) (t.sub d)) b) o).inorder :=
      inorder_rotate_op
    rw [← hu] at hrotate
    rw [hfix, plug, plug, inorder_plug, inorder_plug, hrotate]

/-- A red node is mended where a black one of its height was. -/
theorem sound_fixup (hrb : RB t n) (hred : t.red = true) (hfits : Fits total ctx false n)
    (hmend : Mendable ctx) : Sound total (fixup ctx t).1 (fixup ctx t).2 := by
  rcases fixup_cases ctx (ne_nil_of_red hred) with ⟨hsame, hblack⟩ |
    ⟨x, d, b, c, g, o, rest, rfl, hfix⟩ | ⟨x, d, b, c, g, o, rest, c', u, rfl, hu, hfix⟩
  · rw [hsame]
    refine ⟨n, hrb, ?_⟩
    cases ctx with
    | nil => exact hfits
    | cons x ctx =>
      have hx : x.red = false := by
        cases hx : x.red with
        | false => rfl
        | true =>
          obtain ⟨g, rest, rfl, -⟩ := hmend x ctx rfl hx
          rw [hblack x g rest rfl] at hx
          cases hx
      refine ⟨hfits.1, fun hx' => ?_, hfits.2.2⟩
      rw [hx] at hx'
      cases hx'
  · obtain ⟨hb, hx, ho, hg, hrest⟩ := hfits
    obtain ⟨g', rest', hcons, hother⟩ := hmend _ _ rfl rfl
    cases hcons
    have hc : c = false := by
      cases c with
      | false => rfl
      | true => cases (hg rfl).1
    subst hc
    rw [hfix]
    refine ⟨n + 1, rb_branch.2 ⟨n, rfl, hrb, ?_, nofun⟩, ?_⟩
    · exact rb_branch.2 ⟨n, rfl, hb, ho, fun _ => ⟨(hx rfl).2, hother⟩⟩
    · rw [red_branch]
      exact hrest
  · obtain ⟨hb, hx, ho, hg, hrest⟩ := hfits
    obtain ⟨g', rest', hcons, hother⟩ := hmend _ _ rfl rfl
    cases hcons
    have hc : c = false := by
      cases c with
      | false => rfl
      | true => cases (hg rfl).1
    subst hc
    rw [hu, red_branch] at hred
    subst hred
    obtain ⟨k, hk, hnear, hfar, hsub⟩ := rb_branch.1 (hu ▸ hrb)
    obtain rfl : n = k := hk
    rw [hfix]
    refine ⟨n + 1, rb_branch.2 ⟨n, rfl, ?_, ?_, nofun⟩, ?_⟩
    · exact rb_branch.2 ⟨n, rfl, hnear, hb, fun _ => ⟨(hsub rfl).1, (hx rfl).2⟩⟩
    · exact rb_branch.2 ⟨n, rfl, hfar, ho, fun _ => ⟨(hsub rfl).2, hother⟩⟩
    · rw [red_branch]
      exact hrest

end Pnet.Lib.RedBlack
