import Mathlib.Data.Option.Basic

/-! Programs of commands and loops, and the code of machines that run them: runs that are bounded
by fuel, steps that are counted, and the labels that jumps go to. -/
namespace Pnet.Lib

/-- A sequence of commands and of loops. -/
inductive Body (α : Type*) where
  | nil
  | cons (item : α) (rest : Body α)
  | loop (body rest : Body α)
deriving DecidableEq, Repr

/-- The end of a run, or where it is when its fuel runs out. -/
inductive Outcome (σ : Type*) where
  | done (s : σ)
  | running (s : σ)
  | stuck
deriving DecidableEq, Repr

namespace Outcome

variable {σ : Type*}

def bind (outcome : Outcome σ) (next : σ → Outcome σ) : Outcome σ :=
  match outcome with
  | done s => next s
  | running s => running s
  | stuck => stuck

/-- What holds of the state, if there is one. -/
def Holds (P : σ → Prop) : Outcome σ → Prop
  | done s | running s => P s
  | stuck => True

theorem Holds.imp {P Q : σ → Prop} (h : ∀ s, P s → Q s) {outcome : Outcome σ}
    (hP : outcome.Holds P) : outcome.Holds Q := by
  cases outcome with
  | done s | running s => exact h s hP
  | stuck => trivial

theorem stuck_of_holds {P : σ → Prop} {outcome : Outcome σ} (h : outcome.Holds P)
    (hnot : outcome.Holds fun s => ¬ P s) : outcome = stuck := by
  cases outcome with
  | done s | running s => exact absurd h hnot
  | stuck => rfl

end Outcome

namespace Body

variable {α β σ : Type*}

def map (f : α → β) : Body α → Body β
  | nil => nil
  | cons item rest => cons (f item) (rest.map f)
  | loop body rest => loop (body.map f) (rest.map f)

def hasLoop : Body α → Bool
  | nil => false
  | cons _ rest => rest.hasLoop
  | loop _ _ => true

section Run

variable (exec : α → σ → Option σ) (test : σ → Bool × σ)

/-- A run, given the runs behind the test of a loop. A test may change the state. -/
def runWith (again : Body α → σ → Outcome σ) : Body α → σ → Outcome σ
  | nil, s => .done s
  | cons item rest, s =>
    match exec item s with
    | some s' => runWith again rest s'
    | none => .stuck
  | loop body rest, s =>
    match test s with
    | (true, s') => (again body s').bind (again (loop body rest))
    | (false, s') => runWith again rest s'

/-- A run in which a loop is entered as often as there is fuel. -/
def run : Nat → Body α → σ → Outcome σ
  | 0 => runWith exec test fun _ s => .running s
  | fuel + 1 => runWith exec test (run fuel)

/-- What is run behind the test of a loop. -/
def again : Nat → Body α → σ → Outcome σ
  | 0 => fun _ s => .running s
  | fuel + 1 => run exec test fuel

theorem run_eq (fuel : Nat) : run exec test fuel = runWith exec test (again exec test fuel) := by
  cases fuel <;> rfl

variable {exec test}

theorem runWith_holds {again : Body α → σ → Outcome σ} {P : σ → Prop}
    (hexec : ∀ item s s', exec item s = some s' → P s → P s') (htest : ∀ s, P s → P (test s).2)
    (hagain : ∀ body s, P s → (again body s).Holds P) (body : Body α) {s : σ} (h : P s) :
    (runWith exec test again body s).Holds P := by
  induction body generalizing s with
  | nil => exact h
  | cons item rest ih =>
    rw [runWith]
    cases hs : exec item s with
    | none => trivial
    | some s' => exact ih (hexec item s s' hs h)
  | loop body rest _ ih =>
    have htested := htest s h
    rw [runWith]
    cases hs : test s with
    | mk entered s' =>
      rw [hs] at htested
      cases entered with
      | false => exact ih htested
      | true =>
        have hbody := hagain body s' htested
        dsimp only
        cases hrun : again body s' with
        | stuck => trivial
        | running s'' =>
          rw [hrun] at hbody
          exact hbody
        | done s'' =>
          rw [hrun] at hbody
          exact hagain _ s'' hbody

end Run

end Body

/-! ### Steps of a machine -/

section Steps

variable {μ : Type*} (step : μ → Option μ)

def steps : Nat → μ → Option μ
  | 0, m => some m
  | num + 1, m => (step m).bind (steps num)

variable {step}

theorem steps_add {k l : Nat} {m m' m'' : μ} (h : steps step k m = some m')
    (h' : steps step l m' = some m'') : steps step (k + l) m = some m'' := by
  induction k generalizing m with
  | zero =>
    obtain rfl := Option.some.inj h
    rwa [Nat.zero_add]
  | succ k ih =>
    obtain ⟨next, hnext, h⟩ := Option.bind_eq_some_iff.1 h
    rw [Nat.succ_add, steps, hnext]
    exact ih h

theorem steps_one {m m' : μ} (h : step m = some m') : steps step 1 m = some m' := by
  rw [steps, h]
  rfl

/-- What a step preserves holds after any number of steps. -/
theorem steps_invariant {P : μ → Prop} (hstep : ∀ m m', step m = some m' → P m → P m')
    {k : Nat} {m m' : μ} (h : steps step k m = some m') (hm : P m) : P m' := by
  induction k generalizing m with
  | zero => exact Option.some.inj h ▸ hm
  | succ k ih =>
    obtain ⟨next, hnext, h⟩ := Option.bind_eq_some_iff.1 h
    exact ih h (hstep m next hnext hm)

/-- A machine stops in one state only. -/
theorem steps_unique {k l : Nat} {m m' m'' : μ} (h : steps step k m = some m')
    (h' : steps step l m = some m'') (hstop : step m' = none) (hstop' : step m'' = none) :
    m' = m'' := by
  induction k generalizing l m with
  | zero =>
    obtain rfl := Option.some.inj h
    cases l with
    | zero => exact Option.some.inj h'
    | succ l =>
      rw [steps, hstop] at h'
      cases h'
  | succ k ih =>
    obtain ⟨next, hnext, h⟩ := Option.bind_eq_some_iff.1 h
    cases l with
    | zero =>
      obtain rfl := Option.some.inj h'
      rw [hstop'] at hnext
      cases hnext
    | succ l =>
      rw [steps, hnext] at h'
      exact ih h h'

end Steps

end Pnet.Lib
