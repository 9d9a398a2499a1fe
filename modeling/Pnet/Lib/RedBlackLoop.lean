import Pnet.Lib.RedBlackInsert

/-! The loop of a top-down insertion, from the root to the node that is equal to the key
or to the place where a new one goes. -/
namespace Pnet.Lib.RedBlack
open Tree

variable {H P : Type}

/-- The nodes, in order, as a key sees them: from one that is not below it on, all are
above it. -/
def Ordered (cmp : P → Int) (nodes : List P) : Prop :=
  nodes.Pairwise fun p q => cmp p ≤ 0 → cmp q < 0

/-- The key belongs here. -/
def Between (cmp : P → Int) (ctx : List (Frame P)) : Prop :=
  (∀ q ∈ before ctx, 0 < cmp q) ∧ ∀ q ∈ after ctx, cmp q < 0

section

variable {cmp : P → Int} {ctx : List (Frame P)} {a b : Tree P} {c : Bool} {p : P}

theorem between_down (hordered : Ordered cmp (plug ctx (branch (dirOf cmp p) c p a b)).inorder)
    (hne : cmp p ≠ 0) (h : Between cmp ctx) :
    Between cmp (⟨c, p, dirOf cmp p, b⟩ :: ctx) := by
  rw [inorder_plug, Ordered] at hordered
  have hmiddle := (List.pairwise_append.1 (List.pairwise_append.1 hordered).1).2.1
  by_cases hlt : cmp p < 0
  · have hd : dirOf cmp p = .left := if_pos hlt
    rw [hd] at hmiddle ⊢
    have hright := List.pairwise_cons.1 (List.pairwise_append.1 hmiddle).2.1
    refine ⟨fun q hq => h.1 q (by simpa [before] using hq), fun q hq => ?_⟩
    simp only [after, List.cons_append, List.mem_cons, List.mem_append] at hq
    obtain rfl | hq | hq := hq
    · exact hlt
    · exact hright.1 q hq (by omega)
    · exact h.2 q hq
  · have hd : dirOf cmp p = .right := if_neg hlt
    rw [hd] at hmiddle ⊢
    have hleft := (List.pairwise_append.1 hmiddle).2.2
    refine ⟨fun q hq => ?_, fun q hq => h.2 q (by simpa [after] using hq)⟩
    simp only [before, List.mem_append, List.mem_singleton] at hq
    obtain hq | hq | rfl := hq
    · exact h.1 q hq
    · have hqp := hleft q hq p List.mem_cons_self
      omega
    · omega

theorem between_of_suffix {ctx' : List (Frame P)} (h : Between cmp ctx) (hsuffix : ctx' <:+ ctx) :
    Between cmp ctx' := by
  obtain ⟨pre, rfl⟩ := hsuffix
  induction pre with
  | nil => exact h
  | cons f pre ih =>
    exact ih ⟨fun q hq => h.1 q (List.mem_append_left _ hq),
      fun q hq => h.2 q (List.mem_append_right _ hq)⟩

theorem fixup_suffix {t : Tree P} (ht : t ≠ .nil) : (fixup ctx t).1 <:+ ctx := by
  rcases fixup_cases ctx ht with ⟨hsame, _⟩ | ⟨x, d, b, c, g, o, rest, rfl, hfix⟩ |
    ⟨x, d, b, c, g, o, rest, c', u, rfl, _, hfix⟩
  · have hfirst : (fixup ctx t).1 = ctx := congrArg Prod.fst hsame
    exact hfirst.symm ▸ List.suffix_refl ctx
  · rw [hfix]
    exact (List.suffix_cons ..).trans (List.suffix_cons ..)
  · rw [hfix]
    exact (List.suffix_cons ..).trans (List.suffix_cons ..)

end

namespace Links

variable (L : Links H P) (S : P → Prop) (inv : H → Prop) (cmp : P → Int) (total : Nat)
  (nodes : List P)

/-- The cursor is at a place of a balanced tree with these nodes, on the path of the key. -/
structure Place (cur : Cursor H P) (ctx : List (Frame P)) (t : Tree P) : Prop where
  focus : L.Focus S inv cur.heap ctx t
  sound : Sound total ctx t
  inorder : (plug ctx t).inorder = nodes
  path : AlongPath cmp ctx
  between : Between cmp ctx
  temp : cur.temp = L.ptr t

/-- The ancestors that the cursor knows are those of the place. -/
structure Knows (cur : Cursor H P) (ctx : List (Frame P)) : Prop where
  parent : cur.parent = L.top ctx
  grandParent : cur.grandParent = L.top ctx.tail

/-- What the loop ends with: a node that is equal to the key, or the place for a new one. -/
def Outcome : Except (Cursor H P) (Cursor H P) → Prop
  | .error cur => ∃ ctx t, L.Focus S inv cur.heap ctx t ∧ Sound total ctx t ∧
      (plug ctx t).inorder = nodes ∧ cur.temp ∈ t.inorder ∧ cmp cur.temp = 0
  | .ok cur => ∃ ctx, L.Place S inv cmp total nodes cur ctx .nil ∧ L.Knows cur ctx ∧
      cur.greatGrandParent = L.top ctx.tail.tail ∧ Mendable ctx

variable [DecidableEq P]

def done (cur : Cursor H P) : Bool := cur.temp = L.nil

def Finishes (cur : Cursor H P) : Prop :=
  ∃ fuel r, run L.done (L.step cmp) fuel cur = some r ∧ L.Outcome S inv cmp total nodes r

variable {L S inv cmp total nodes} {cur cur' : Cursor H P} {ctx : List (Frame P)} {t : Tree P}

theorem Finishes.step (hnil : cur.temp ≠ L.nil) (hstep : L.step cmp cur = .ok cur')
    (h : L.Finishes S inv cmp total nodes cur') : L.Finishes S inv cmp total nodes cur := by
  obtain ⟨fuel, r, hrun, hr⟩ := h
  refine ⟨fuel + 1, r, ?_, hr⟩
  simp [run, done, hnil, hstep, hrun]

namespace Place

omit [DecidableEq P] in
theorem temp_ne_nil (h : L.Place S inv cmp total nodes cur ctx t) (ht : t ≠ .nil) :
    cur.temp ≠ L.nil := by
  obtain ⟨c, p, hbranch⟩ := eq_branch .left ht
  have hfocus := h.focus
  rw [hbranch] at hfocus
  rw [h.temp, hbranch, ptr_branch]
  exact hfocus.root_notMem.2.1

/-- The key is that of the node here. -/
theorem equal (h : L.Place S inv cmp total nodes cur ctx t) (ht : t ≠ .nil)
    (hzero : cmp cur.temp = 0) : L.Finishes S inv cmp total nodes cur := by
  refine ⟨1, .error ⟨cur.heap, cur.temp, cur.grandParent, cur.parent, cur.temp⟩, ?_, ctx, t, h.focus, h.sound, h.inorder, ?_, hzero⟩
  · simp [run, done, h.temp_ne_nil ht, Links.step, hzero]
  · obtain ⟨c, p, hbranch⟩ := eq_branch .left ht
    show cur.temp ∈ t.inorder
    rw [h.temp, hbranch, ptr_branch, mem_inorder_branch]
    exact .inl rfl

/-- The cursor, one node down, before that is split. -/
def next (L : Links H P) (cmp : P → Int) (cur : Cursor H P) : Cursor H P :=
  ⟨cur.heap, L.child cur.heap cur.temp (dirOf cmp cur.temp), cur.grandParent, cur.parent, cur.temp⟩

omit [DecidableEq P] in
theorem down (hordered : Ordered cmp nodes) (h : L.Place S inv cmp total nodes cur ctx t)
    (ht : t ≠ .nil) (hne : cmp cur.temp ≠ 0) :
    ∃ c p d b, t = branch d c p (toward cmp t) b ∧ cur.temp = p ∧
      L.Place S inv cmp total nodes (next L cmp cur) (⟨c, p, d, b⟩ :: ctx) (toward cmp t) ∧
      L.step cmp cur = if (toward cmp t).splittable then .ok (L.split cmp (next L cmp cur))
        else .ok (next L cmp cur) := by
  obtain ⟨c, p, b, hbranch⟩ := exists_branch_toward cmp ht
  generalize toward cmp t = a at *
  subst hbranch
  have htemp : cur.temp = p := h.temp.trans ptr_branch
  rw [htemp] at hne
  have hfocus := h.focus.down
  have hchild : L.child cur.heap p (dirOf cmp p) = L.ptr a := (repr_branch.1 h.focus.tree).2.1
  refine ⟨c, p, dirOf cmp p, b, rfl, htemp, ⟨hfocus, sound_down.1 h.sound, h.inorder, ?_, ?_, ?_⟩, ?_⟩
  · intro f hf
    rcases List.mem_cons.1 hf with rfl | hf
    · rfl
    · exact h.path f hf
  · exact between_down (h.inorder ▸ hordered) hne h.between
  · simp only [next, htemp, hchild]
  · simp only [Links.step, htemp, if_neg hne, next, hchild, hfocus.isSplittable]

/-- A split that leaves the place as it is. -/
theorem split_black {f : Frame P} (hL : L.Lawful S inv)
    (h : L.Place S inv cmp total nodes cur (f :: ctx) t)
    (hsplit : t.splittable = true) (hparent : cur.parent = f.p) (hblack : f.red = false) :
    L.Place S inv cmp total nodes (L.split cmp cur) (f :: ctx) t.split ∧
      (L.split cmp cur).parent = cur.parent ∧ (L.split cmp cur).grandParent = cur.grandParent := by
  have hfocus := h.focus.recolour hL hsplit
  rw [← h.temp] at hfocus
  have hred : L.red (L.recolour cur.heap cur.temp) cur.parent = false := by
    rw [hparent]
    exact hfocus.red_top.trans hblack
  have hkeep : L.split cmp cur = { cur with heap := L.recolour cur.heap cur.temp } := by
    simp [Links.split, Links.mend, hred]
  obtain ⟨n, hrb, hother, _, hfits⟩ := h.sound
  obtain ⟨hrbSplit, _⟩ := hrb.split hsplit
  rw [hkeep]
  refine ⟨⟨hfocus, ⟨n, hrbSplit, hother, fun hred => ?_, hfits⟩, ?_, h.path, h.between, ?_⟩, rfl, rfl⟩
  · rw [hblack] at hred
    cases hred
  · rw [← h.inorder, inorder_plug, inorder_plug, inorder_split]
  · rw [show _ = cur.temp from rfl, h.temp]
    cases t with
    | nil => cases hsplit
    | node c p left right => rfl

/-- A split that rotates; the cursor's ancestors are then wrong. -/
theorem split_red (hL : L.Lawful S inv) (hhead : 0 < cmp L.head)
    (h : L.Place S inv cmp total nodes cur ctx t) (hsplit : t.splittable = true)
    (hknows : L.Knows cur ctx) (hgreat : cur.greatGrandParent = L.top ctx.tail.tail)
    (hmend : Mendable ctx) :
    L.Place S inv cmp total nodes (L.split cmp cur) (fixup ctx t.split).1 (fixup ctx t.split).2 := by
  obtain ⟨n, hrb, hfits⟩ := h.sound
  obtain ⟨hrbSplit, hblack⟩ := hrb.split hsplit
  rw [hblack] at hfits
  have hptr : L.ptr t.split = L.ptr t := by cases t <;> rfl
  have hred : t.split.red = true := by
    cases t with
    | nil => cases hsplit
    | node c p left right => rfl
  have hne := ne_nil_of_red hred
  have hfocus := h.focus.recolour hL hsplit
  rw [← h.temp] at hfocus
  generalize hheap : L.recolour cur.heap cur.temp = heap at hfocus
  have hmended : L.Focus S inv (L.mend cmp { cur with heap := heap }).heap _ _ ∧ _ :=
    Focus.mend hL hhead hfocus hred h.path hmend hknows.parent hknows.grandParent hgreat
  obtain ⟨hmended, htemp⟩ := hmended
  rw [Links.split, hheap]
  refine ⟨hmended, sound_fixup hrbSplit hred hfits hmend, ?_, ?_, ?_, htemp (h.temp.trans hptr.symm)⟩
  · rw [inorder_fixup ctx hne, ← h.inorder, inorder_plug, inorder_plug, inorder_split]
  · exact fun f hf => h.path f ((fixup_suffix hne).subset hf)
  · exact between_of_suffix h.between (fixup_suffix hne)

/-- A round that does not split. -/
theorem finishes_down (hordered : Ordered cmp nodes) (h : L.Place S inv cmp total nodes cur ctx t)
    (ht : t ≠ .nil) (hcalm : (toward cmp t).splittable = false)
    (hnext : ∀ c p d b cur', t = branch d c p (toward cmp t) b →
      L.Place S inv cmp total nodes cur' (⟨c, p, d, b⟩ :: ctx) (toward cmp t) → cur'.parent = p →
      cur'.grandParent = cur.parent → cur'.greatGrandParent = cur.grandParent →
      L.Finishes S inv cmp total nodes cur') : L.Finishes S inv cmp total nodes cur := by
  by_cases hzero : cmp cur.temp = 0
  · exact h.equal ht hzero
  · obtain ⟨c, p, d, b, hbranch, htemp, hplace, hstep⟩ := h.down hordered ht hzero
    rw [hcalm] at hstep
    exact .step (h.temp_ne_nil ht) hstep (hnext c p d b _ hbranch hplace htemp rfl rfl)

theorem finishes (hL : L.Lawful S inv) (hhead : 0 < cmp L.head) (hordered : Ordered cmp nodes)
    (h : L.Place S inv cmp total nodes cur ctx t) (hknows : L.Knows cur ctx)
    (hgreat : t = .nil → cur.greatGrandParent = L.top ctx.tail.tail) (hready : Ready cmp ctx t) :
    L.Finishes S inv cmp total nodes cur := by
  generalize hsize : t.size = size
  induction size using Nat.strongRecOn generalizing cur ctx t with
  | ind size ih =>
  by_cases ht : t = .nil
  · subst ht
    refine ⟨0, .ok cur, ?_, ctx, h, hknows, hgreat rfl, hready.leaf rfl⟩
    simp [run, done, h.temp, ptr]
  · have hlt : (toward cmp t).size < size := by
      obtain ⟨d, hd⟩ := exists_toward_eq_sub cmp t
      rw [hd, ← hsize]
      exact size_sub_lt ht d
    cases hsplit : (toward cmp t).splittable with
    | false =>
      refine h.finishes_down hordered ht hsplit fun c p d b cur' hbranch hplace hp hg hgg => ?_
      refine ih _ hlt hplace ⟨hp, hg.trans hknows.parent⟩ (fun _ => ?_)
        (ready_descend hready hbranch hsplit) rfl
      exact hgg.trans hknows.grandParent
    | true =>
      by_cases hzero : cmp cur.temp = 0
      · exact h.equal ht hzero
      · obtain ⟨c, p, d, b, hbranch, htemp, hplace, hstep⟩ := h.down hordered ht hzero
        rw [hsplit] at hstep
        refine .step (h.temp_ne_nil ht) hstep ?_
        have hmend := mendable_of_ready hready hbranch hsplit
        obtain ⟨n, hrb, _⟩ := hplace.sound
        cases c with
        | false =>
          obtain ⟨hplace', hp, hg⟩ := hplace.split_black hL hsplit htemp rfl
          have hreadySplit : Ready cmp (⟨false, p, d, b⟩ :: ctx) (toward cmp t).split :=
            ready_split hrb hsplit
          refine ih _ ?_ hplace' ⟨hp.trans htemp, hg.trans hknows.parent⟩ ?_ hreadySplit rfl
          · rw [size_split]
            exact hlt
          · intro hnil
            rw [hnil] at hreadySplit
            cases hsub : toward cmp t with
            | nil =>
              rw [hsub] at hsplit
              cases hsplit
            | node c p left right =>
              rw [hsub] at hnil
              cases hnil
        | true =>
          -- Two rounds at nodes that cannot be split, while the ancestors are wrong.
          have hplace' := hplace.split_red hL hhead hsplit ⟨htemp, hknows.parent⟩
            hknows.grandParent hmend
          have hsettled := settled_fixup hrb hsplit hplace.path hmend
          have hfirst : toward cmp (fixup (⟨true, p, d, b⟩ :: ctx) (toward cmp t).split).2 ≠ .nil := by
            intro hnil
            have hsecond := hsettled.second
            rw [hnil] at hsecond
            exact hsecond rfl
          have htop : (fixup (⟨true, p, d, b⟩ :: ctx) (toward cmp t).split).2 ≠ .nil := by
            intro hnil
            rw [hnil] at hfirst
            exact hfirst rfl
          refine hplace'.finishes_down hordered htop hsettled.first
            fun c₁ p₁ d₁ b₁ cur₁ _ hplace₁ hp₁ _ _ => ?_
          refine hplace₁.finishes_down hordered hfirst hsettled.calm
            fun c₂ p₂ d₂ b₂ cur₂ _ hplace₂ hp₂ hg₂ _ => ?_
          refine ih _ (Nat.lt_trans hsettled.size hlt) hplace₂ ⟨hp₂, hg₂.trans hp₁⟩
            (fun hnil => absurd hnil hsettled.second) ?_ rfl
          refine ⟨hsettled.calm, fun hred => ?_, fun hnil => absurd hnil hsettled.second⟩
          rw [hsettled.black] at hred
          cases hred

end Place

/-! ### From the head to the new leaf -/

def start (L : Links H P) (h : H) : Cursor H P := ⟨h, L.head, L.head, L.head, L.head⟩

/-- The root is not both red and above a node that this key splits. -/
def Clear (cmp : P → Int) (t : Tree P) : Prop :=
  t.red = true → (toward cmp t).splittable = false

theorem ready_root {n : Nat} (hrb : RB t n) (hroot : t ≠ .nil → 0 < n) (hclear : Clear cmp t)
    (hcalm : t.splittable = false) : Ready cmp [] t := by
  refine ⟨hcalm, fun hred => .inr ⟨?_, hclear hred⟩, fun _ x rest hcons => by cases hcons⟩
  have hne := ne_nil_of_red hred
  obtain ⟨c, p, b, hbranch⟩ := exists_branch_toward cmp hne
  have hc : c = true := by
    rw [hbranch, red_branch] at hred
    exact hred
  obtain ⟨k, hk, hsub, _⟩ := rb_branch.1 (hbranch ▸ hrb)
  rw [hc] at hk
  have hpos := hroot hne
  intro hnil
  rw [hnil] at hsub
  cases hsub
  exact absurd hk (by simp [heightAbove]; omega)

theorem start_finishes {h : H} (hL : L.Lawful S inv) (hhead : 0 < cmp L.head)
    (hf : L.Focus S inv h [] t) (hrb : RB t total) (hroot : t ≠ .nil → 0 < total)
    (hordered : Ordered cmp t.inorder) (hclear : Clear cmp t) :
    L.Finishes S inv cmp total t.inorder (L.start h) := by
  have hdone : L.head ≠ L.nil := by
    have hnodup := (List.nodup_cons.1 hf.nodup).1
    exact fun heq => hnodup (heq ▸ List.mem_cons_self)
  have hchild : L.child h L.head .right = L.ptr t := hf.hole
  have hdir : dirOf cmp L.head = .right := if_neg (by omega)
  have hstep : L.step cmp (L.start h) = if t.splittable then
      .ok (L.split cmp ⟨h, L.ptr t, L.head, L.head, L.head⟩)
      else .ok ⟨h, L.ptr t, L.head, L.head, L.head⟩ := by
    have hne : cmp L.head ≠ 0 := by omega
    simp only [step, start, if_neg hne, hdir, hchild, hf.isSplittable]
  have hpath : AlongPath cmp ([] : List (Frame P)) := fun f hf => absurd hf List.not_mem_nil
  have hbetween : Between cmp ([] : List (Frame P)) :=
    ⟨fun q hq => absurd hq List.not_mem_nil, fun q hq => absurd hq List.not_mem_nil⟩
  cases hsplit : t.splittable with
  | false =>
    rw [hsplit] at hstep
    refine .step hdone hstep ?_
    have hplace : L.Place S inv cmp total t.inorder ⟨h, L.ptr t, L.head, L.head, L.head⟩ [] t :=
      ⟨hf, ⟨total, hrb, rfl⟩, rfl, hpath, hbetween, rfl⟩
    exact hplace.finishes hL hhead hordered ⟨rfl, rfl⟩ (fun _ => rfl)
      (ready_root hrb hroot hclear hsplit)
  | true =>
    rw [hsplit] at hstep
    refine .step hdone hstep ?_
    have hfocus := hf.recolour hL hsplit
    have hkeep : L.split cmp ⟨h, L.ptr t, L.head, L.head, L.head⟩ =
        ⟨L.recolour h (L.ptr t), L.ptr t, L.head, L.head, L.head⟩ := by
      simp [split, mend, hfocus.head_black]
    rw [hkeep]
    have hptr : L.ptr t = L.ptr t.split := by cases t <;> rfl
    have hplace : L.Place S inv cmp total t.inorder
        ⟨L.recolour h (L.ptr t), L.ptr t, L.head, L.head, L.head⟩ [] t.split :=
      ⟨hfocus, ⟨total, (hrb.split hsplit).1, rfl⟩, inorder_split, hpath, hbetween, hptr⟩
    exact hplace.finishes hL hhead hordered ⟨rfl, rfl⟩ (fun _ => rfl) (ready_split hrb hsplit)

theorem finish_spec {m : P} (hL : L.Lawful S inv) (hhead : 0 < cmp L.head)
    (h : L.Place S inv cmp total nodes cur ctx .nil) (hknows : L.Knows cur ctx)
    (hgreat : cur.greatGrandParent = L.top ctx.tail.tail) (hmend : Mendable ctx) (hm : S m)
    (hfresh : m ∉ L.head :: L.nil :: frameNodes ctx) (hred : L.red cur.heap m = true)
    (hchild : ∀ e, L.child cur.heap m e = L.nil) :
    ∃ t k, L.Focus S inv (L.finish cmp cur m) [] t ∧ RB t k ∧ t.red = false ∧
      t.inorder = before ctx ++ m :: after ctx := by
  have htemp : cur.temp = L.nil := h.temp
  have hhang := (h.focus.hang hL hm hfresh hred hchild).recolour_nil hL
  rw [← dirOf_top hhead h.path, ← hknows.parent, ← htemp] at hhang
  generalize hhung : L.recolour (L.setChild cur.heap cur.parent (dirOf cmp cur.parent) m) cur.temp =
    hung at hhang
  have hmended : L.Focus S inv (L.mend cmp { cur with heap := hung }).heap _ _ ∧ _ :=
    Focus.mend hL hhead hhang rfl h.path hmend hknows.parent hknows.grandParent hgreat
  replace hmended := hmended.1
  obtain ⟨n, hnil, hfits⟩ := h.sound
  cases hnil
  have hleaf : RB (.node true m .nil .nil : Tree P) 0 := .red .nil .nil rfl rfl
  have hsound := sound_plug.1 (sound_fixup hleaf rfl hfits hmend)
  have hinorder := inorder_fixup ctx (t := .node true m .nil .nil) (by nofun)
  have hroot := hmended.to_root
  generalize plug _ _ = t at hroot hsound hinorder
  have hne : t ≠ .nil := by
    rintro rfl
    rw [inorder_plug] at hinorder
    have hlength := congrArg List.length hinorder
    simp [Tree.inorder] at hlength
  obtain ⟨c, p, hbranch⟩ := eq_branch .left hne
  have hfinal := (hbranch ▸ hroot).paint hL false
  have hright : L.child (L.mend cmp { cur with heap := hung }).heap L.head .right = p := by
    refine hroot.hole.trans ?_
    rw [hbranch, ptr_branch]
  have hblacken : branch .left false p (t.sub .left) (t.sub Dir.left.op) = t.blacken := by
    cases t with
    | nil => exact absurd rfl hne
    | node c' p' left right =>
      obtain ⟨-, rfl, -, -⟩ := Tree.node.inj hbranch
      rfl
  rw [hblacken] at hfinal
  refine ⟨t.blacken, _, ?_, hsound.blacken, red_blacken, ?_⟩
  · simp only [finish, split, hhung]
    rw [hright]
    exact hfinal
  · rw [inorder_blacken, hinorder, inorder_plug]
    simp [Tree.inorder]

end Links

end Pnet.Lib.RedBlack
