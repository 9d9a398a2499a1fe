import Mathlib.Logic.Basic

/-! Weakest preconditions for calls that change a state and either return a value
or fail. A failure keeps the changes made before it. -/
namespace Pnet.Lib

variable {ε σ α β : Type}

/-- Started in `s`, `m` returns only as `Q` allows and fails only as `E` allows. -/
def wp (m : EStateM ε σ α) (s : σ) (Q : α → σ → Prop) (E : ε → σ → Prop) : Prop :=
  match m s with
  | .ok a t => Q a t
  | .error e t => E e t

/-- On failure, `cleanup` and fail as before. -/
def onFailure (m : EStateM ε σ α) (cleanup : σ → σ) : EStateM ε σ α := fun s =>
  match m s with
  | .ok a t => .ok a t
  | .error e t => .error e (cleanup t)

variable {m : EStateM ε σ α} {s : σ} {Q : α → σ → Prop} {E : ε → σ → Prop}

theorem wp_ok {a : α} {t : σ} (h : wp m s Q E) (hrun : m s = .ok a t) : Q a t := by
  simpa [wp, hrun] using h

theorem wp_error {e : ε} {t : σ} (h : wp m s Q E) (hrun : m s = .error e t) : E e t := by
  simpa [wp, hrun] using h

theorem wp_mono {Q' : α → σ → Prop} {E' : ε → σ → Prop} (h : wp m s Q E)
    (hQ : ∀ a t, Q a t → Q' a t) (hE : ∀ e t, E e t → E' e t) : wp m s Q' E' := by
  unfold wp at *
  cases hm : m s with
  | ok a t =>
    rw [hm] at h
    exact hQ a t h
  | error e t =>
    rw [hm] at h
    exact hE e t h

@[simp] theorem wp_pure (a : α) : wp (pure a) s Q E ↔ Q a s := Iff.rfl

@[simp] theorem wp_get {Q : σ → σ → Prop} : wp get s Q E ↔ Q s s := Iff.rfl

@[simp] theorem wp_modify (f : σ → σ) {Q : PUnit → σ → Prop} :
    wp (modify f) s Q E ↔ Q ⟨⟩ (f s) := Iff.rfl

@[simp] theorem wp_bind (f : α → EStateM ε σ β) {Q : β → σ → Prop} :
    wp (m >>= f) s Q E ↔ wp m s (fun a t => wp (f a) t Q E) E := by
  unfold wp
  change (match EStateM.bind m f s with | .ok a t => Q a t | .error e t => E e t) ↔ _
  unfold EStateM.bind
  cases m s <;> rfl

@[simp] theorem wp_onFailure (cleanup : σ → σ) :
    wp (onFailure m cleanup) s Q E ↔ wp m s Q (fun e t => E e (cleanup t)) := by
  unfold wp onFailure
  cases m s <;> rfl

theorem wp_ite (c : Prop) [Decidable c] {m₁ m₂ : EStateM ε σ α}
    (h₁ : c → wp m₁ s Q E) (h₂ : ¬ c → wp m₂ s Q E) : wp (if c then m₁ else m₂) s Q E := by
  split
  · exact h₁ ‹_›
  · exact h₂ ‹_›

/-- The run returned, and what it returned passes a test. -/
def returns (r : EStateM.Result ε σ α) (test : α → Bool) : Bool :=
  match r with
  | .ok a _ => test a
  | .error _ _ => false

theorem returns_ok {r : EStateM.Result ε σ α} {test : α → Bool} (h : returns r test = true) :
    ∃ a t, r = .ok a t ∧ test a = true := by
  cases r with
  | ok a t => exact ⟨a, t, rfl, h⟩
  | error e t => cases h

/-- The same, with a test of the state too. -/
def returnsIn (r : EStateM.Result ε σ α) (test : α → σ → Bool) : Bool :=
  match r with
  | .ok a t => test a t
  | .error _ _ => false

theorem returnsIn_ok {r : EStateM.Result ε σ α} {test : α → σ → Bool}
    (h : returnsIn r test = true) : ∃ a t, r = .ok a t ∧ test a t = true := by
  cases r with
  | ok a t => exact ⟨a, t, rfl, h⟩
  | error e t => cases h

end Pnet.Lib
