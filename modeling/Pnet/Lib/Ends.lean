import Mathlib.Logic.Basic

/-! What a fallible computation may return, and what it may fail with. -/
namespace Pnet.Lib

variable {ε α β : Type}

/-- A result is one that `Q` allows, a failure one that `E` allows. -/
def Ends (Q : α → Prop) (E : ε → Prop) : Except ε α → Prop
  | .ok a => Q a
  | .error e => E e

variable {Q : α → Prop} {E : ε → Prop}

theorem Ends.mono {Q' : α → Prop} {E' : ε → Prop} {r : Except ε α} (h : Ends Q E r)
    (hQ : ∀ a, Q a → Q' a) (hE : ∀ e, E e → E' e) : Ends Q' E' r := by
  cases r with
  | ok a => exact hQ a h
  | error e => exact hE e h

theorem Ends.bind {P : β → Prop} {r : Except ε α} {f : α → Except ε β} (h : Ends Q E r)
    (hf : ∀ a, Q a → Ends P E (f a)) : Ends P E (r >>= f) := by
  cases r with
  | ok a => exact hf a h
  | error e => exact h

theorem Ends.ite {c : Prop} [Decidable c] {r₁ r₂ : Except ε α} (h₁ : c → Ends Q E r₁)
    (h₂ : ¬ c → Ends Q E r₂) : Ends Q E (if c then r₁ else r₂) := by
  split
  · exact h₁ ‹_›
  · exact h₂ ‹_›

theorem Ends.of_ok {r : Except ε α} {a : α} (h : Ends Q E r) (hr : r = .ok a) : Q a := by
  rwa [hr] at h

end Pnet.Lib
