import Mathlib.Data.List.Induction
import Mathlib.Data.Set.Lattice
import Mathlib.Order.CompletePartialOrder

/-! Laying items end to end, each at the next multiple of its alignment, with a
running size that is kept modulo `M`. The items come to lie apart and inside the
final size exactly when the running size never wraps. -/
namespace Pnet.Lib

structure Item where
  size : Nat
  alignment : Nat
deriving DecidableEq

def roundUp (n a : Nat) : Nat := if n % a ≠ 0 then n + (a - n % a) else n

theorem le_roundUp (n a : Nat) : n ≤ roundUp n a := by
  unfold roundUp
  split
  · exact Nat.le_add_right ..
  · exact Nat.le_refl n

theorem dvd_roundUp {a : Nat} (ha : 0 < a) (n : Nat) : a ∣ roundUp n a := by
  unfold roundUp
  split
  · have hlt := Nat.mod_lt n ha
    have hdiv := Nat.div_add_mod n a
    have hsum : n + (a - n % a) = a * (n / a) + a := by omega
    rw [hsum]
    exact Nat.dvd_add (Nat.dvd_mul_right ..) (Nat.dvd_refl a)
  · rename_i h
    exact Nat.dvd_of_mod_eq_zero (not_not.1 h)

theorem roundUp_le {n a m : Nat} (ha : 0 < a) (hle : n ≤ m) (hdvd : a ∣ m) : roundUp n a ≤ m := by
  unfold roundUp
  split
  · have hlt := Nat.mod_lt n ha
    have hdiv := Nat.div_add_mod n a
    obtain ⟨k, rfl⟩ := hdvd
    have hquot : n / a < k := by
      by_contra hge
      have hmul := Nat.mul_le_mul_left a (Nat.le_of_not_lt hge)
      omega
    have hmul := Nat.mul_le_mul_left a hquot
    rw [Nat.mul_succ] at hmul
    omega
  · exact hle

@[simp] theorem roundUp_zero (a : Nat) : roundUp 0 a = 0 := by simp [roundUp]

/-! ### The walk -/

/-- Where an item goes when the running size is `cur`. -/
def place (M cur : Nat) (x : Item) : Nat := roundUp cur x.alignment % M

def advance (M cur : Nat) (x : Item) : Nat := (place M cur x + x.size) % M

def finish (M : Nat) (items : List Item) : Nat := items.foldl (advance M) 0

def grow (cur : Nat) (x : Item) : Nat := roundUp cur x.alignment + x.size

/-- The size of the items when nothing wraps. -/
def extent (items : List Item) : Nat := items.foldl grow 0

def bytes (offset size : Nat) : Set Nat := Set.Ico offset (offset + size)

/-- Each item lies apart from the later ones and inside the final size. -/
structure Packed (M : Nat) (items : List Item) : Prop where
  disjoint : ∀ pre x mid y post, items = pre ++ x :: (mid ++ y :: post) →
    Disjoint (bytes (place M (finish M pre) x) x.size)
      (bytes (place M (finish M (pre ++ x :: mid)) y) y.size)
  within : ∀ pre x post, items = pre ++ x :: post →
    bytes (place M (finish M pre) x) x.size ⊆ Set.Iio (finish M items)

structure Item.Fits (M : Nat) (x : Item) : Prop where
  pos : 0 < x.alignment
  dvd : x.alignment ∣ M
  lt : x.size < M

variable {M : Nat}

theorem bytes_disjoint {o o' n n' : Nat} (h : o + n ≤ o') : Disjoint (bytes o n) (bytes o' n') := by
  rw [Set.disjoint_left]
  intro b hb hb'
  exact absurd (hb'.1) (Nat.not_le.2 (Nat.lt_of_lt_of_le hb.2 h))

@[simp] theorem finish_snoc (items : List Item) (x : Item) :
    finish M (items ++ [x]) = advance M (finish M items) x := by
  simp [finish]

@[simp] theorem extent_snoc (items : List Item) (x : Item) :
    extent (items ++ [x]) = grow (extent items) x := by
  simp [extent]

theorem extent_append_le (pre post : List Item) : extent pre ≤ extent (pre ++ post) := by
  induction post using List.reverseRecOn with
  | nil => simp
  | append_singleton post x ih =>
    rw [← List.append_assoc, extent_snoc]
    exact ih.trans ((le_roundUp _ _).trans (Nat.le_add_right ..))

theorem finish_lt (hM : 0 < M) (items : List Item) : finish M items < M := by
  induction items using List.reverseRecOn with
  | nil => exact hM
  | append_singleton items x _ =>
    rw [finish_snoc]
    exact Nat.mod_lt _ hM

/-- As long as it is below `M`, the running size is the unbounded one. -/
theorem finish_eq_extent {items : List Item} (h : extent items < M) :
    finish M items = extent items := by
  induction items using List.reverseRecOn with
  | nil => rfl
  | append_singleton items x ih =>
    have hpre : extent items < M := Nat.lt_of_le_of_lt (extent_append_le items [x]) h
    rw [extent_snoc] at h ⊢
    have hround : roundUp (extent items) x.alignment < M :=
      Nat.lt_of_le_of_lt (Nat.le_add_right ..) h
    rw [finish_snoc, ih hpre, advance, place, Nat.mod_eq_of_lt hround]
    exact Nat.mod_eq_of_lt h

theorem place_eq_roundUp {items pre post : List Item} {x : Item} (h : extent items < M)
    (hsplit : items = pre ++ x :: post) :
    place M (finish M pre) x = roundUp (extent pre) x.alignment ∧
      roundUp (extent pre) x.alignment + x.size = extent (pre ++ [x]) ∧
      extent (pre ++ [x]) ≤ extent items := by
  have hle : extent (pre ++ [x]) ≤ extent items := by
    rw [hsplit, show pre ++ x :: post = (pre ++ [x]) ++ post by simp]
    exact extent_append_le _ _
  have hgrow : extent (pre ++ [x]) = roundUp (extent pre) x.alignment + x.size := extent_snoc ..
  have hpre : extent pre < M := by
    have := extent_append_le pre [x]
    omega
  refine ⟨?_, hgrow.symm, hle⟩
  rw [place, finish_eq_extent hpre]
  apply Nat.mod_eq_of_lt
  omega

theorem Packed.of_lt {items : List Item} (h : extent items < M) : Packed M items := by
  constructor
  · intro pre x mid y post hsplit
    obtain ⟨hx, hxend, _⟩ := place_eq_roundUp h hsplit
    obtain ⟨hy, _, _⟩ := place_eq_roundUp h
      (show items = (pre ++ x :: mid) ++ y :: post by simp [hsplit])
    apply bytes_disjoint
    rw [hx, hy, hxend]
    have hmid := extent_append_le (pre ++ [x]) mid
    rw [show (pre ++ [x]) ++ mid = pre ++ x :: mid by simp] at hmid
    exact hmid.trans (le_roundUp _ _)
  · intro pre x post hsplit b hb
    obtain ⟨hx, hxend, hle⟩ := place_eq_roundUp h hsplit
    rw [Set.mem_Iio, finish_eq_extent h]
    have hlt := hb.2
    rw [hx, hxend] at hlt
    exact Nat.lt_of_lt_of_le hlt hle

/-! ### After a wrap -/

/-- From a running size of 0 the first item that has bytes takes byte 0. -/
theorem covers_zero {pre : List Item} (hpre : finish M pre = 0) (rest : List Item) :
    finish M (pre ++ rest) = 0 ∨
      ∃ mid y post, rest = mid ++ y :: post ∧ 0 < y.size ∧
        place M (finish M (pre ++ mid)) y = 0 := by
  induction rest generalizing pre with
  | nil =>
    left
    rw [List.append_nil]
    exact hpre
  | cons x rest ih =>
    have hplace : place M (finish M pre) x = 0 := by
      rw [hpre, place, roundUp_zero, Nat.zero_mod]
    cases Nat.eq_zero_or_pos x.size with
    | inr hpos =>
      right
      exact ⟨[], x, rest, rfl, hpos, by simpa using hplace⟩
    | inl hempty =>
      have hnext : finish M (pre ++ [x]) = 0 := by
        rw [finish_snoc, advance, hplace, hempty, Nat.zero_mod]
      rw [show pre ++ x :: rest = (pre ++ [x]) ++ rest by simp]
      cases ih hnext with
      | inl h => exact .inl h
      | inr h =>
        right
        obtain ⟨mid, y, post, hrest, hy, hzero⟩ := h
        exact ⟨x :: mid, y, post, by simp [hrest], hy, by simpa using hzero⟩

theorem zero_mem_bytes {o n : Nat} (ho : o = 0) (hn : 0 < n) : 0 ∈ bytes o n := by
  subst ho
  exact ⟨Nat.le_refl 0, by simpa using hn⟩

/-- An item that is sent back to 0 meets one that is there, or leaves the size at 0. -/
theorem not_packed_of_wrap {items pre post : List Item} {x : Item}
    (hsplit : items = pre ++ x :: post) (hpre : finish M pre ≠ 0)
    (hx : place M (finish M pre) x = 0) : ¬ Packed M items := by
  intro hpacked
  obtain h | ⟨pre₁, g, post₁, hg, hgsize, hgzero⟩ :=
    covers_zero (show finish M [] = 0 from rfl) pre
  · exact hpre h
  rw [List.nil_append] at hgzero
  have hgmem := zero_mem_bytes hgzero hgsize
  cases Nat.eq_zero_or_pos x.size with
  | inr hpos =>
    have hdisj := hpacked.disjoint pre₁ g post₁ x post (by simp [hsplit, hg])
    rw [← hg] at hdisj
    exact Set.disjoint_left.1 hdisj hgmem (zero_mem_bytes hx hpos)
  | inl hempty =>
    have hnext : finish M (pre ++ [x]) = 0 := by
      rw [finish_snoc, advance, hx, hempty, Nat.zero_mod]
    cases covers_zero hnext post with
    | inl h =>
      have hwithin := hpacked.within pre₁ g (post₁ ++ x :: post) (by simp [hsplit, hg]) hgmem
      rw [hsplit, show pre ++ x :: post = (pre ++ [x]) ++ post by simp, h] at hwithin
      exact Nat.not_lt_zero 0 hwithin
    | inr h =>
      obtain ⟨mid, y, post₂, hpost, hy, hzero⟩ := h
      have hdisj := hpacked.disjoint pre₁ g (post₁ ++ x :: mid) y post₂
        (by simp [hsplit, hg, hpost])
      rw [show pre₁ ++ g :: (post₁ ++ x :: mid) = pre ++ [x] ++ mid by simp [hg]] at hdisj
      exact Set.disjoint_left.1 hdisj hgmem (zero_mem_bytes hzero hy)

theorem Packed.extent_lt {items : List Item} (hM : 0 < M)
    (hfits : ∀ x ∈ items, x.Fits M) (h : Packed M items) : extent items < M := by
  have hall : ∀ pre post, items = pre ++ post → extent pre < M := by
    intro pre
    induction pre using List.reverseRecOn with
    | nil => exact fun _ _ => hM
    | append_singleton pre x ih =>
      intro post hsplit
      have hsplit' : items = pre ++ x :: post := by simp [hsplit]
      have hpre := ih (x :: post) hsplit'
      have hx := hfits x (by simp [hsplit'])
      have hround := roundUp_le hx.pos (Nat.le_of_lt hpre) hx.dvd
      rw [extent_snoc]
      by_contra hge
      rw [Nat.not_lt, grow] at hge
      cases Nat.lt_or_eq_of_le hround with
      | inr hwrap =>
        refine not_packed_of_wrap hsplit' ?_ ?_ h
        · rw [finish_eq_extent hpre]
          intro hzero
          rw [hzero, roundUp_zero] at hwrap
          omega
        · rw [place, finish_eq_extent hpre, hwrap, Nat.mod_self]
      | inl hlt =>
        have hlast : roundUp (extent pre) x.alignment + (x.size - 1) ∈
            bytes (place M (finish M pre) x) x.size := by
          rw [place, finish_eq_extent hpre, Nat.mod_eq_of_lt hlt]
          exact ⟨Nat.le_add_right .., by omega⟩
        have hwithin := h.within pre x post hsplit' hlast
        rw [Set.mem_Iio] at hwithin
        have hfinish := finish_lt hM items
        omega
  exact hall items [] (by simp)

/-- Nothing overlaps or sticks out exactly when the size does not wrap. -/
theorem packed_iff {items : List Item} (hM : 0 < M) (hfits : ∀ x ∈ items, x.Fits M) :
    Packed M items ↔ extent items < M :=
  ⟨fun h => h.extent_lt hM hfits, .of_lt⟩

end Pnet.Lib

/-! ### Items with an offset of their own

Items of which some ask for an offset of their own, over a running size that is kept
modulo `M`. Such an item may lie over others; the running size grows to take it in. -/
namespace Pnet.Lib

/-- An item and the offset it asks for. -/
structure Request where
  offset : Option Nat
  item : Item

namespace Request

variable (M cur : Nat)

/-- Where the item goes. -/
def place (x : Request) : Nat :=
  match x.offset with
  | some offset => offset
  | none => Lib.place M cur x.item

def advance (x : Request) : Nat :=
  match x.offset with
  | some offset => max cur ((offset + x.item.size) % M)
  | none => Lib.advance M cur x.item

/-- The running size when nothing wraps. -/
def grow (x : Request) : Nat :=
  match x.offset with
  | some offset => max cur (offset + x.item.size)
  | none => Lib.grow cur x.item

/-- Rounding up for the item wraps to 0. -/
def Restarts (x : Request) : Prop :=
  x.offset = none ∧ roundUp cur x.item.alignment = M

structure Fits (x : Request) : Prop where
  item : x.item.Fits M
  offset : ∀ offset, x.offset = some offset → offset < M

end Request

variable {M start : Nat}

/-- The running size after the items, from `start`. -/
def overlay (M start : Nat) (xs : List Request) : Nat := xs.foldl (Request.advance M) start

def overlayExtent (start : Nat) (xs : List Request) : Nat := xs.foldl Request.grow start

theorem overlay_snoc (xs : List Request) (x : Request) :
    overlay M start (xs ++ [x]) = x.advance M (overlay M start xs) := by
  simp [overlay]

theorem overlayExtent_snoc (xs : List Request) (x : Request) :
    overlayExtent start (xs ++ [x]) = x.grow (overlayExtent start xs) := by
  simp [overlayExtent]

theorem Request.le_grow (x : Request) (cur : Nat) : cur ≤ x.grow cur := by
  unfold Request.grow
  split
  · exact Nat.le_max_left ..
  · exact (le_roundUp _ _).trans (Nat.le_add_right ..)

theorem overlayExtent_append_le (pre post : List Request) :
    overlayExtent start pre ≤ overlayExtent start (pre ++ post) := by
  induction post using List.reverseRecOn with
  | nil => simp
  | append_singleton post x ih =>
    rw [← List.append_assoc, overlayExtent_snoc]
    exact ih.trans (x.le_grow _)

/-- One item, as long as the size with it is below `M`. -/
theorem Request.exact {x : Request} {cur : Nat} (h : x.grow cur < M) :
    x.advance M cur = x.grow cur ∧ x.place M cur + x.item.size ≤ x.grow cur := by
  unfold Request.advance Request.grow Request.place at *
  split at h
  · rename_i offset _
    have hend : offset + x.item.size < M := Nat.lt_of_le_of_lt (Nat.le_max_right ..) h
    rw [Nat.mod_eq_of_lt hend]
    exact ⟨rfl, Nat.le_max_right ..⟩
  · have hround : roundUp cur x.item.alignment < M :=
      Nat.lt_of_le_of_lt (Nat.le_add_right ..) h
    rw [Lib.advance, Lib.place, Nat.mod_eq_of_lt hround]
    exact ⟨Nat.mod_eq_of_lt h, Nat.le_refl _⟩

theorem overlay_eq_extent {xs : List Request} (h : overlayExtent start xs < M) :
    overlay M start xs = overlayExtent start xs := by
  induction xs using List.reverseRecOn with
  | nil => rfl
  | append_singleton xs x ih =>
    have hpre := Nat.lt_of_le_of_lt (overlayExtent_append_le xs [x]) h
    rw [overlayExtent_snoc] at h ⊢
    rw [overlay_snoc, ih hpre, (Request.exact h).1]

/-- Below `M` every item lies inside the running size. -/
theorem end_le_extent {xs pre post : List Request} {x : Request}
    (h : overlayExtent start xs < M) (hsplit : xs = pre ++ x :: post) :
    x.place M (overlay M start pre) + x.item.size ≤ overlayExtent start xs := by
  have hle : overlayExtent start (pre ++ [x]) ≤ overlayExtent start xs := by
    rw [hsplit, show pre ++ x :: post = (pre ++ [x]) ++ post by simp]
    exact overlayExtent_append_le _ _
  have hpre := Nat.lt_of_le_of_lt ((overlayExtent_append_le pre [x]).trans hle) h
  rw [overlayExtent_snoc] at hle
  rw [overlay_eq_extent hpre]
  exact (Request.exact (Nat.lt_of_le_of_lt hle h)).2.trans hle

/-- If every item ends below `M` and none restarts, the size is below `M`. -/
theorem extent_lt_of_ends {xs : List Request} (hstart : start < M)
    (hfits : ∀ x ∈ xs, x.Fits M)
    (hends : ∀ pre x post, xs = pre ++ x :: post →
      x.place M (overlay M start pre) + x.item.size < M)
    (hrestart : ∀ pre x post, xs = pre ++ x :: post → overlayExtent start pre < M →
      ¬ x.Restarts M (overlayExtent start pre)) : overlayExtent start xs < M := by
  have hall : ∀ pre post, xs = pre ++ post → overlayExtent start pre < M := by
    intro pre
    induction pre using List.reverseRecOn with
    | nil => exact fun _ _ => hstart
    | append_singleton pre x ih =>
      intro post hsplit
      have hsplit' : xs = pre ++ x :: post := by simp [hsplit]
      have hpre := ih (x :: post) hsplit'
      have hend := hends pre x post hsplit'
      have hnot := hrestart pre x post hsplit' hpre
      have hx := (hfits x (by simp [hsplit'])).item
      rw [overlayExtent_snoc]
      rw [overlay_eq_extent hpre] at hend
      unfold Request.place at hend
      unfold Request.grow
      split
      · rename_i offset hoffset
        simp only [hoffset] at hend
        exact Nat.max_lt.2 ⟨hpre, hend⟩
      · rename_i hoffset
        simp only [hoffset] at hend
        have hround := roundUp_le hx.pos (Nat.le_of_lt hpre) hx.dvd
        have hne : roundUp (overlayExtent start pre) x.item.alignment ≠ M :=
          fun heq => hnot ⟨hoffset, heq⟩
        rw [Lib.place, Nat.mod_eq_of_lt (Nat.lt_of_le_of_ne hround hne)] at hend
        exact hend
  exact hall xs [] (by simp)

end Pnet.Lib
