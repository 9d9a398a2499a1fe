import Mathlib.Data.List.Forall2

/-! A loop that runs a fallible step until a test stops it. `run` is bounded by
fuel; whether the loop ends at all is a question about the states it reaches. -/
namespace Pnet.Lib

variable {σ ε : Type}

theorem ok_bind {α β : Type} (a : α) (f : α → Except ε β) : (.ok a >>= f) = f a := rfl

theorem bind_ok {α β : Type} {x : Except ε α} {f : α → Except ε β} {b : β}
    (h : x >>= f = .ok b) : ∃ a, x = .ok a ∧ f a = .ok b := by
  cases x with
  | error e => cases h
  | ok a => exact ⟨a, rfl, h⟩

/-- `while(!done) step`, for at most `fuel` rounds. -/
def run (done : σ → Bool) (step : σ → Except ε σ) : Nat → σ → Option (Except ε σ)
  | 0, s => if done s then some (.ok s) else none
  | fuel + 1, s =>
    if done s then some (.ok s)
    else match step s with
      | .ok s' => run done step fuel s'
      | .error e => some (.error e)

/-- The states at the head of the loop. -/
inductive Reaches (done : σ → Bool) (step : σ → Except ε σ) (start : σ) : σ → Prop where
  | start : Reaches done step start start
  | step {s s' : σ} : Reaches done step start s → done s = false → step s = .ok s' →
      Reaches done step start s'

variable {done : σ → Bool} {step : σ → Except ε σ}

theorem Reaches.invariant (inv : σ → Prop) {start s : σ} (hreach : Reaches done step start s)
    (hstart : inv start)
    (hstep : ∀ s s', inv s → done s = false → step s = .ok s' → inv s') : inv s := by
  induction hreach with
  | start => exact hstart
  | step _ hdone hs ih => exact hstep _ _ ih hdone hs

theorem Reaches.trans {s t u : σ} (h : Reaches done step s t) (h' : Reaches done step t u) :
    Reaches done step s u := by
  induction h' with
  | start => exact h
  | step _ hdone hs ih => exact .step ih hdone hs

theorem Reaches.head {s s' t : σ} (hdone : done s = false) (hs : step s = .ok s')
    (h : Reaches done step s' t) : Reaches done step s t :=
  (Reaches.step .start hdone hs).trans h

theorem run_ok {fuel : Nat} {s t : σ} (h : run done step fuel s = some (.ok t)) :
    Reaches done step s t ∧ done t = true := by
  induction fuel generalizing s with
  | zero =>
    unfold run at h
    split at h
    · cases h
      exact ⟨.start, by assumption⟩
    · cases h
  | succ fuel ih =>
    unfold run at h
    split at h
    · cases h
      exact ⟨.start, by assumption⟩
    · rename_i hdone
      split at h
      · rename_i s' hs
        obtain ⟨hreach, ht⟩ := ih h
        exact ⟨.head (by simpa using hdone) hs hreach, ht⟩
      · cases h

theorem run_mono {fuel : Nat} {s : σ} {r : Except ε σ} (h : run done step fuel s = some r)
    {fuel' : Nat} (hle : fuel ≤ fuel') : run done step fuel' s = some r := by
  induction fuel generalizing s fuel' with
  | zero =>
    unfold run at h
    split at h
    · cases fuel' <;> simp_all [run]
    · cases h
  | succ fuel ih =>
    obtain ⟨fuel', rfl⟩ := Nat.exists_eq_add_of_le' hle
    unfold run at h ⊢
    split at h
    · rename_i hdone
      rw [if_pos hdone]
      exact h
    · rename_i hdone
      rw [if_neg hdone]
      cases hs : step s with
      | ok s' =>
        rw [hs] at h
        exact ih h (Nat.le_add_left ..)
      | error e =>
        rw [hs] at h
        exact h

/-- A measure that every round decreases bounds the rounds. -/
theorem run_terminates (measure : σ → Nat) (start : σ)
    (h : ∀ s s', Reaches done step start s → done s = false → step s = .ok s' →
      measure s' < measure s) :
    ∃ fuel r, run done step fuel start = some r := by
  generalize hbound : measure start = bound
  induction bound using Nat.strongRecOn generalizing start with
  | ind bound ih =>
    cases hdone : done start with
    | true => exact ⟨0, .ok start, by simp [run, hdone]⟩
    | false =>
      cases hs : step start with
      | error e => exact ⟨1, .error e, by simp [run, hdone, hs]⟩
      | ok next =>
        have hlt := h start next .start hdone hs
        obtain ⟨fuel, r, hr⟩ := ih (measure next) (hbound ▸ hlt) next
          (fun s s' hreach => h s s' (.head hdone hs hreach)) rfl
        exact ⟨fuel + 1, r, by simp [run, hdone, hs, hr]⟩

theorem run_of_reaches {s t : σ} (hreach : Reaches done step s t)
    (hstuck : ∀ fuel, run done step fuel t = none) (fuel : Nat) : run done step fuel s = none := by
  induction hreach generalizing fuel with
  | start => exact hstuck fuel
  | step hprev hdone hs ih =>
    apply ih
    intro fuel
    cases fuel with
    | zero => simp [run, hdone]
    | succ fuel => simp [run, hdone, hs, hstuck fuel]

/-- A set of states that the step never leaves and the test never stops. -/
theorem run_none (trap : σ → Prop)
    (htrap : ∀ s, trap s → done s = false ∧ ∃ s', step s = .ok s' ∧ trap s') {s : σ} (hs : trap s)
    (fuel : Nat) : run done step fuel s = none := by
  induction fuel generalizing s with
  | zero => simp [run, (htrap s hs).1]
  | succ fuel ih =>
    obtain ⟨hdone, s', hstep, hs'⟩ := htrap s hs
    simp [run, hdone, hstep, ih hs']

end Pnet.Lib

/-! ### Recursion with a bound

Partial functions computed with a bound on the depth of their recursion. When a
greater bound keeps every answer, the answers do not depend on the bound. -/
namespace Pnet.Lib

variable {α β : Type}

/-- `g` answers all that `f` does, in the same way. -/
def Extends (f g : α → Option β) : Prop := ∀ a b, f a = some b → g a = some b

def Fueled (f : Nat → α → Option β) : Prop := ∀ fuel, Extends (f fuel) (f (fuel + 1))

/-- What `f` answers with fuel enough. -/
def Answers (f : Nat → α → Option β) (a : α) (b : β) : Prop := ∃ fuel, f fuel a = some b

variable {f : Nat → α → Option β}

theorem Fueled.mono (hf : Fueled f) {fuel fuel' : Nat} (hle : fuel ≤ fuel') :
    Extends (f fuel) (f fuel') := by
  induction hle with
  | refl => exact fun _ _ h => h
  | step _ ih => exact fun a b h => hf _ a b (ih a b h)

theorem Fueled.le_max_left (hf : Fueled f) (fuel fuel' : Nat) :
    Extends (f fuel) (f (max fuel fuel')) :=
  hf.mono (Nat.le_max_left fuel fuel')

theorem Fueled.le_max_right (hf : Fueled f) (fuel fuel' : Nat) :
    Extends (f fuel') (f (max fuel fuel')) :=
  hf.mono (Nat.le_max_right fuel fuel')

theorem Answers.unique (hf : Fueled f) {a : α} {b b' : β} (h : Answers f a b)
    (h' : Answers f a b') : b = b' := by
  obtain ⟨fuel, h⟩ := h
  obtain ⟨fuel', h'⟩ := h'
  have hmax := hf.le_max_left fuel fuel' a b h
  rw [hf.le_max_right fuel fuel' a b' h'] at hmax
  exact (Option.some.inj hmax).symm

/-- What is asked of each argument of a list. -/
theorem forall₂_of_mapM {g : α → Option β} {as : List α} {bs : List β} (h : as.mapM g = some bs) :
    List.Forall₂ (fun a b => g a = some b) as bs := by
  induction as generalizing bs with
  | nil =>
    rw [List.mapM_nil] at h
    cases h
    exact .nil
  | cons a as ih =>
    rw [List.mapM_cons] at h
    obtain ⟨b, hb, h⟩ := Option.bind_eq_some_iff.1 h
    obtain ⟨rest, hrest, h⟩ := Option.bind_eq_some_iff.1 h
    cases h
    exact .cons hb (ih hrest)

end Pnet.Lib
