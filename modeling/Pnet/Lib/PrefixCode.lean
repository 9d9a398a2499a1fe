import Mathlib.Data.List.Basic

/-! Reading a sequence of self-delimiting items from the concatenation of
their encodings. The reader keeps its own state; `at` places it before a
given tail of the input. -/
namespace Pnet.Lib.PrefixCode

variable {α β σ : Type}

/-- Read `n` items one after the other. -/
def readMany (read : σ → α × σ) : Nat → σ → List α × σ
  | 0, s => ([], s)
  | n + 1, s =>
    let item := read s
    let rest := readMany read n item.2
    (item.1 :: rest.1, rest.2)

/-- `read` undoes `encode` up to `image`, in front of any tail. -/
def Decodes (place : List β → σ) (encode : α → List β) (read : σ → α × σ) (image : α → α) : Prop :=
  ∀ a rest, read (place (encode a ++ rest)) = (image a, place rest)

theorem readMany_flatMap {place : List β → σ} {encode : α → List β} {read : σ → α × σ}
    {image : α → α} (h : Decodes place encode read image) (as : List α) (rest : List β) :
    readMany read as.length (place (as.flatMap encode ++ rest)) = (as.map image, place rest) := by
  induction as with
  | nil => rfl
  | cons a as ih =>
    simp only [List.length_cons, List.flatMap_cons, List.append_assoc, readMany, h a, ih,
      List.map_cons]

theorem map_eq_self_iff (image : α → α) (as : List α) :
    as.map image = as ↔ ∀ a ∈ as, image a = a := by
  induction as with
  | nil => simp
  | cons a as ih => simp [ih]

/-- The whole sequence comes back exactly when every item of it does. -/
theorem readMany_eq_iff {place : List β → σ} {encode : α → List β} {read : σ → α × σ}
    {image : α → α} (h : Decodes place encode read image) (as : List α) (rest : List β) :
    readMany read as.length (place (as.flatMap encode ++ rest)) = (as, place rest) ↔
      ∀ a ∈ as, image a = a := by
  rw [readMany_flatMap h, Prod.mk.injEq, map_eq_self_iff]
  simp

/-! ### Up to the end

Here a reader is at a position of a fixed input, and goes on until it is at the end. -/

/-- Read items from a position on; `fuel` bounds their number. -/
def readAll (read : Nat → Option (α × Nat)) (len : Nat) : Nat → Nat → Option (List α)
  | fuel, posn =>
    if posn < len then
      match fuel with
      | 0 => none
      | fuel + 1 => (read posn).bind fun item => (readAll read len fuel item.2).map (item.1 :: ·)
    else some []

variable {read : Nat → Option (α × Nat)} {encode : α → List β} {input : List β}

/-- Items that are written one after the other are read one after the other. -/
theorem readAll_flatMap {items : List α}
    (hread : ∀ pre item post, item ∈ items → input = pre ++ encode item ++ post →
      read pre.length = some (item, pre.length + (encode item).length))
    (hne : ∀ item ∈ items, encode item ≠ []) {pre : List β} {fuel : Nat}
    (hinput : input = pre ++ items.flatMap encode) (hfuel : input.length - pre.length ≤ fuel) :
    readAll read input.length fuel pre.length = some items := by
  induction items generalizing pre fuel with
  | nil =>
    unfold readAll
    rw [hinput, List.flatMap_nil, List.append_nil, if_neg (Nat.lt_irrefl _)]
  | cons item items ih =>
    have hpos := List.length_pos_iff.2 (hne item List.mem_cons_self)
    rw [List.flatMap_cons, ← List.append_assoc] at hinput
    have hlength := congrArg List.length hinput
    rw [List.length_append, List.length_append] at hlength
    obtain ⟨fuel, rfl⟩ := Nat.exists_eq_succ_of_ne_zero (show fuel ≠ 0 by omega)
    have hrest := ih (fun pre item post hitem => hread pre item post (.tail _ hitem))
      (fun item hitem => hne item (.tail _ hitem)) hinput
      (show input.length - (pre ++ encode item).length ≤ fuel by rw [List.length_append]; omega)
    rw [List.length_append] at hrest
    unfold readAll
    rw [if_pos (by omega), hread pre item _ List.mem_cons_self hinput]
    dsimp only [Option.bind_some]
    rw [hrest]
    rfl

/-- A reader that takes apart what an encoding puts together gives items whose encodings are
the input. -/
theorem readAll_split {Valid : α → Prop}
    (hread : ∀ pre post, input = pre ++ post → post ≠ [] → ∃ item post',
      read pre.length = some (item, pre.length + (encode item).length) ∧ Valid item ∧
        encode item ≠ [] ∧ post = encode item ++ post') {pre post : List β} {fuel : Nat}
    (hinput : input = pre ++ post) (hfuel : post.length ≤ fuel) :
    ∃ items, readAll read input.length fuel pre.length = some items ∧
      (∀ item ∈ items, Valid item) ∧ items.flatMap encode = post := by
  induction fuel generalizing pre post with
  | zero =>
    have hpost := List.length_eq_zero_iff.1 (Nat.le_zero.1 hfuel)
    subst hpost
    refine ⟨[], ?_, fun _ hitem => absurd hitem List.not_mem_nil, rfl⟩
    unfold readAll
    rw [hinput, List.append_nil, if_neg (Nat.lt_irrefl _)]
  | succ fuel ih =>
    by_cases hpost : post = []
    · subst hpost
      refine ⟨[], ?_, fun _ hitem => absurd hitem List.not_mem_nil, rfl⟩
      unfold readAll
      rw [hinput, List.append_nil, if_neg (Nat.lt_irrefl _)]
    · obtain ⟨item, post', hitem, hvalid, hne, hsplit⟩ := hread pre post hinput hpost
      have hpos := List.length_pos_iff.2 hne
      have hlength := congrArg List.length hsplit
      rw [List.length_append] at hlength
      rw [hsplit, ← List.append_assoc] at hinput
      obtain ⟨items, hrest, hvalids, hitems⟩ := ih hinput (show post'.length ≤ fuel by omega)
      rw [List.length_append] at hrest
      refine ⟨item :: items, ?_, ?_, ?_⟩
      · have hlt : pre.length < input.length := by
          rw [hinput, List.length_append, List.length_append]
          omega
        unfold readAll
        rw [if_pos hlt, hitem]
        dsimp only [Option.bind_some]
        rw [hrest]
        rfl
      · exact List.forall_mem_cons.2 ⟨hvalid, hvalids⟩
      · rw [List.flatMap_cons, hitems, hsplit]

end Pnet.Lib.PrefixCode
