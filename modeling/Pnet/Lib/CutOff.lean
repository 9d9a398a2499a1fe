import Mathlib.Tactic.SplitIfs

/-! Parsers that read on when their input has broken off, beside decoders that say what the input
is. -/
namespace Pnet.Lib.CutOff

/-- The input is whole, or it is wrong, or it breaks off. A parser that reads on takes what is
missing for zeros, which may pass for the rest. -/
inductive Outcome (α T : Type) where
  | whole (a : α) (rest : T)
  | malformed
  | cut (passes : Bool)

abbrev Parser (S α : Type) := StateT S Option α

abbrev Decoder (T α : Type) := T → Outcome α T

variable {S T α β γ : Type}

namespace Decoder

def pure (a : α) : Decoder T α := fun t => .whole a t

def malformed : Decoder T α := fun _ => .malformed

/-- When the first part breaks off, `passes` says whether what follows can be read from zeros. -/
def andThen (d : Decoder T α) (passes : Bool) (k : α → Decoder T β) : Decoder T β := fun t =>
  match d t with
  | .whole a rest => k a rest
  | .malformed => .malformed
  | .cut first => .cut (first && passes)

end Decoder

section

variable {embed : T → S} {failed : S → Prop} {zero : α → Prop} {zero' : β → Prop} {p : Parser S α}
  {d : Decoder T α} {k : α → Parser S β} {k' : α → Decoder T β} {passes : Bool} {s : S} {t : T}

/-- The parser reads on behind the end, as far as what follows passes. -/
def ReadsOn (failed : S → Prop) (zero : α → Prop) (passes : Bool) (p : Parser S α) (s : S) : Prop :=
  if passes then ∃ a s', p s = some (a, s') ∧ failed s' ∧ zero a else p s = none

/-- The parser finds what the decoder says of whole input, and reads on behind a cut. -/
def Agrees (embed : T → S) (failed : S → Prop) (zero : α → Prop) (p : Parser S α)
    (d : Decoder T α) : Prop :=
  ∀ t, match d t with
    | .whole a rest => p (embed t) = some (a, embed rest)
    | .malformed => True
    | .cut passes => ReadsOn failed zero passes p (embed t)

/-- Behind the end, what is read is zeros. -/
def OnFailed (failed : S → Prop) (zero : α → Prop) (passes : Bool) (p : Parser S α) : Prop :=
  ∀ s, failed s → ReadsOn failed zero passes p s

theorem bind_some {a : α} {s' : S} (h : p s = some (a, s')) : (p >>= k) s = k a s' := by
  change (p s).bind _ = _
  rw [h]
  rfl

theorem bind_none (h : p s = none) : (p >>= k) s = none := by
  change (p s).bind _ = _
  rw [h]
  rfl

theorem bind_congr_at {k₂ : α → Parser S β} (h : ∀ a s', p s = some (a, s') → k a s' = k₂ a s') :
    (p >>= k) s = (p >>= k₂) s := by
  cases hp : p s with
  | none => rw [bind_none hp, bind_none hp]
  | some found =>
    obtain ⟨a, s'⟩ := found
    rw [bind_some hp, bind_some hp, h a s' hp]

theorem ReadsOn.bind {first : Bool} (h : ReadsOn failed zero first p s)
    (hk : ∀ a, zero a → OnFailed failed zero' passes (k a)) :
    ReadsOn failed zero' (first && passes) (p >>= k) s := by
  cases first with
  | false => exact bind_none h
  | true =>
    obtain ⟨a, s', hp, hs, ha⟩ := h
    have hrest := hk a ha s' hs
    unfold ReadsOn at hrest ⊢
    rw [bind_some hp]
    exact hrest

theorem OnFailed.bind (h : OnFailed failed zero true p)
    (hk : ∀ a, zero a → OnFailed failed zero' passes (k a)) :
    OnFailed failed zero' passes (p >>= k) := by
  intro s hs
  have hrest := (h s hs).bind hk
  rwa [Bool.true_and] at hrest

/-- What is missing at once is missing with anything behind it. -/
theorem OnFailed.stop (h : OnFailed failed zero false p) : OnFailed failed zero' false (p >>= k) :=
  fun s hs => bind_none (h s hs)

theorem OnFailed.pure {a : α} (ha : zero a) : OnFailed failed zero true (Pure.pure a) :=
  fun s hs => ⟨a, s, rfl, hs, ha⟩

theorem OnFailed.failure : OnFailed failed zero false (failure : Parser S α) := fun _ _ => rfl

theorem OnFailed.mono {zero₂ : α → Prop} (h : OnFailed failed zero passes p)
    (hzero : ∀ a, zero a → zero₂ a) : OnFailed failed zero₂ passes p := by
  intro s hs
  have hp := h s hs
  cases passes with
  | false => exact hp
  | true =>
    obtain ⟨a, s', hp, hs', ha⟩ := hp
    exact ⟨a, s', hp, hs', hzero a ha⟩

theorem Agrees.andThen (h : Agrees embed failed zero p d)
    (hk : ∀ a, Agrees embed failed zero' (k a) (k' a))
    (hfailed : ∀ a, zero a → OnFailed failed zero' passes (k a)) :
    Agrees embed failed zero' (p >>= k) (d.andThen passes k') := by
  intro t
  have hp := h t
  unfold Decoder.andThen
  cases hd : d t with
  | whole a rest =>
    rw [hd] at hp
    have hrest := hk a rest
    dsimp only at hp ⊢
    unfold ReadsOn at hrest ⊢
    rw [bind_some hp]
    exact hrest
  | malformed => trivial
  | cut first =>
    rw [hd] at hp
    exact hp.bind hfailed

theorem Agrees.pure (a : α) : Agrees embed failed zero (Pure.pure a) (Decoder.pure a) :=
  fun _ => rfl

theorem Agrees.malformed : Agrees embed failed zero p Decoder.malformed := fun _ => trivial

theorem Agrees.ite {c : Prop} [Decidable c] {q : Parser S α} {e : Decoder T α}
    (hp : Agrees embed failed zero p d) (hq : Agrees embed failed zero q e) :
    Agrees embed failed zero (if c then p else q) (if c then d else e) := by
  split_ifs
  · exact hp
  · exact hq

theorem Agrees.mono {zero₂ : α → Prop} (h : Agrees embed failed zero p d)
    (hzero : ∀ a, zero a → zero₂ a) : Agrees embed failed zero₂ p d := by
  intro t
  have hp := h t
  cases hd : d t with
  | whole a rest =>
    rw [hd] at hp
    exact hp
  | malformed => trivial
  | cut first =>
    rw [hd] at hp
    cases first with
    | false => exact hp
    | true =>
      obtain ⟨a, s', hp, hs', ha⟩ := hp
      exact ⟨a, s', hp, hs', hzero a ha⟩

end

end Pnet.Lib.CutOff
