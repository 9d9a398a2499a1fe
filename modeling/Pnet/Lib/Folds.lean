import Mathlib.Data.BitVec

/-! A function folded over a text in blocks of one size, and what it has taken in while the text
comes in pieces. -/
namespace Pnet.Lib.BlockFold

variable {σ α : Type} (compress : σ → List α → σ) (size : Nat)

/-- Takes in a number of blocks. -/
def foldBlocks : Nat → σ → List α → σ
  | 0, s, _ => s
  | n + 1, s, text => foldBlocks n (compress s (text.take size)) (text.drop size)

/-- Takes in all whole blocks. -/
def fold (s : σ) (text : List α) : σ := foldBlocks compress size (text.length / size) s text

variable {compress size} {s t : σ} {text rest : List α}

theorem fold_nil : fold compress size s [] = s := by
  simp [fold, foldBlocks]

theorem fold_block {block : List α} (hsize : 0 < size) (hblock : block.length = size) (text : List α) :
    fold compress size s (block ++ text) = fold compress size (compress s block) text := by
  have hdiv : (block ++ text).length / size = text.length / size + 1 := by
    rw [List.length_append, hblock, Nat.add_comm, Nat.add_div_right _ hsize]
  rw [fold, hdiv, foldBlocks, List.take_left' hblock, List.drop_left' hblock, fold]

/-- Whole blocks at the front are taken in first. -/
theorem fold_append (hsize : 0 < size) {front : List α} (hfront : size ∣ front.length)
    (text : List α) :
    fold compress size s (front ++ text) =
      fold compress size (fold compress size s front) text := by
  obtain ⟨n, hn⟩ := hfront
  induction n generalizing front s with
  | zero =>
    rw [List.eq_nil_of_length_eq_zero hn, fold_nil, List.nil_append]
  | succ n ih =>
    have hlength : size ≤ front.length := by
      rw [hn]
      exact Nat.le_mul_of_pos_right size (Nat.succ_pos n)
    have hblock : (front.take size).length = size := List.length_take_of_le hlength
    have hrest : (front.drop size).length = size * n := by
      rw [List.length_drop, hn, Nat.mul_succ, Nat.add_sub_cancel]
    rw [← List.take_append_drop size front, List.append_assoc, fold_block hsize hblock,
      fold_block hsize hblock, ih hrest]

/-- Of a text that began in state `s`, all but `rest` has been taken in, which led to `t`. -/
def Absorbed (compress : σ → List α → σ) (size : Nat) (s : σ) (text : List α) (t : σ)
    (rest : List α) : Prop :=
  ∃ front, text = front ++ rest ∧ size ∣ front.length ∧ fold compress size s front = t

namespace Absorbed

theorem nil (s : σ) : Absorbed compress size s [] s [] :=
  ⟨[], rfl, Nat.dvd_zero size, fold_nil⟩

theorem append (h : Absorbed compress size s text t rest) (more : List α) :
    Absorbed compress size s (text ++ more) t (rest ++ more) := by
  obtain ⟨front, rfl, hdvd, hfold⟩ := h
  exact ⟨front, List.append_assoc front rest more, hdvd, hfold⟩

/-- A rest that has become a block is taken in. -/
theorem block (h : Absorbed compress size s text t rest) (hsize : 0 < size)
    (hrest : rest.length = size) : Absorbed compress size s text (compress t rest) [] := by
  obtain ⟨front, rfl, hdvd, hfold⟩ := h
  refine ⟨front ++ rest, (List.append_nil _).symm, ?_, ?_⟩
  · rw [List.length_append, hrest]
    exact Nat.dvd_add hdvd (Nat.dvd_refl size)
  · have hlast := @fold_block _ _ compress _ t _ hsize hrest []
    rw [List.append_nil, fold_nil] at hlast
    rw [fold_append hsize hdvd, hfold, hlast]

theorem fold_eq (h : Absorbed compress size s text t []) : fold compress size s text = t := by
  obtain ⟨front, rfl, -, hfold⟩ := h
  rw [List.append_nil, hfold]

theorem length_mod (h : Absorbed compress size s text t rest) (hrest : rest.length < size) :
    text.length % size = rest.length := by
  obtain ⟨front, rfl, ⟨n, hn⟩, -⟩ := h
  rw [List.length_append, hn, Nat.mul_add_mod, Nat.mod_eq_of_lt hrest]

end Absorbed

end Pnet.Lib.BlockFold

/-! ### Folds that are taken back

Folds that are taken back by the inverse steps in reverse order, and the networks of rounds on
two halves that are their own inverse but for the order of the keys. -/
namespace Pnet.Lib.Undo

variable {σ κ : Type}

theorem foldl_reverse_undo (step back : σ → κ → σ) (hback : ∀ s k, back (step s k) k = s) (s : σ)
    (keys : List κ) : keys.reverse.foldl back (keys.foldl step s) = s := by
  induction keys generalizing s with
  | nil => rfl
  | cons k keys ih =>
    rw [List.foldl_cons, List.reverse_cons, List.foldl_append, ih, List.foldl_cons, List.foldl_nil,
      hback]

/-! ### Rounds on two halves -/

variable {w : Nat} (f : κ → BitVec w → BitVec w)

/-- One half is mixed with a function of the other, and they change places. -/
def round (halves : BitVec w × BitVec w) (key : κ) : BitVec w × BitVec w :=
  (halves.2, halves.1 ^^^ f key halves.2)

def network (keys : List κ) (halves : BitVec w × BitVec w) : BitVec w × BitVec w :=
  keys.foldl (round f) halves

/-- Halves and keys that are held in another form go through the rounds alike. -/
theorem network_map {κ' : Type} {w' : Nat} {f : κ → BitVec w → BitVec w}
    {g : κ' → BitVec w' → BitVec w'} (φ : BitVec w' → BitVec w) (hold : κ' → κ)
    (hxor : ∀ x y, φ (x ^^^ y) = φ x ^^^ φ y) (hround : ∀ key x, f (hold key) (φ x) = φ (g key x))
    (keys : List κ') (halves : BitVec w' × BitVec w') :
    network f (keys.map hold) (Prod.map φ φ halves) = Prod.map φ φ (network g keys halves) := by
  unfold network
  induction keys generalizing halves with
  | nil => rfl
  | cons key keys ih =>
    have hstep : round f (Prod.map φ φ halves) (hold key) = Prod.map φ φ (round g halves key) := by
      simp only [round, Prod.map_fst, Prod.map_snd, Prod.map_apply, hround, hxor]
    rw [List.map_cons, List.foldl_cons, List.foldl_cons, hstep, ih]

theorem round_swap (halves : BitVec w × BitVec w) (key : κ) :
    (round f (round f halves key).swap key).swap = halves := by
  simp only [round, Prod.swap_prod_mk, BitVec.xor_assoc, BitVec.xor_self, BitVec.xor_zero]

theorem network_swap (keys : List κ) (halves : BitVec w × BitVec w) :
    (network f keys halves.swap).swap =
      keys.foldl (fun halves key => (round f halves.swap key).swap) halves := by
  unfold network
  induction keys generalizing halves with
  | nil => rfl
  | cons key keys ih => rw [List.foldl_cons, List.foldl_cons, ← ih, Prod.swap_swap]

/-- With the halves exchanged, the keys in reverse order take a network back. -/
theorem network_reverse (keys : List κ) (halves : BitVec w × BitVec w) :
    network f keys.reverse (network f keys halves).swap = halves.swap := by
  have hundo := foldl_reverse_undo (round f)
    (fun halves key => (round f halves.swap key).swap) (round_swap f) halves keys
  rw [← Prod.swap_swap (network f keys.reverse _), network_swap]
  exact congrArg Prod.swap hundo

end Pnet.Lib.Undo
