import Mathlib.Logic.Basic

/-! A system that may get stuck, step by step beside one that says what it should do. -/
namespace Pnet.Lib

variable {S A Op R : Type} (step : S → Op → Option (S × R)) (spec : A → Op → A × R)

/-- Every step gives the result it should, and the states stay related. -/
def Agrees (Rel : S → A → Prop) : S → A → List Op → Prop
  | _, _, [] => True
  | s, a, op :: ops => ∃ s', step s op = some (s', (spec a op).2) ∧ Rel s' (spec a op).1 ∧
      Agrees Rel s' (spec a op).1 ops

/-- Every step meets a condition on the state it should start from. -/
def MeetsAll (meets : A → Op → Prop) : A → List Op → Prop
  | _, [] => True
  | a, op :: ops => meets a op ∧ MeetsAll meets (spec a op).1 ops

variable {step spec} {Rel Inv : S → A → Prop} {meets : A → Op → Prop}

/-- If the condition decides whether a step agrees, it decides whether a run does. -/
theorem agrees_iff_meetsAll (hrel : ∀ s a, Inv s a → Rel s a)
    (hmeets : ∀ s a op, Inv s a → meets a op →
      ∃ s', step s op = some (s', (spec a op).2) ∧ Inv s' (spec a op).1)
    (hnot : ∀ s a op, Inv s a → ¬ meets a op →
      ∀ s', step s op = some (s', (spec a op).2) → ¬ Rel s' (spec a op).1)
    {s : S} {a : A} (h : Inv s a) (ops : List Op) :
    Agrees step spec Rel s a ops ↔ MeetsAll spec meets a ops := by
  induction ops generalizing s a with
  | nil => exact Iff.rfl
  | cons op ops ih =>
    unfold Agrees MeetsAll
    by_cases hm : meets a op
    · obtain ⟨s', hstep, h'⟩ := hmeets s a op h hm
      constructor
      · intro hagrees
        obtain ⟨s'', hstep', _, hrest⟩ := hagrees
        cases hstep.symm.trans hstep'
        exact ⟨hm, (ih h').1 hrest⟩
      · intro hall
        exact ⟨s', hstep, hrel s' _ h', (ih h').2 hall.2⟩
    · constructor
      · intro hagrees
        obtain ⟨s', hstep, hrel', _⟩ := hagrees
        exact absurd hrel' (hnot s a op h hm s' hstep)
      · intro hall
        exact absurd hall.1 hm

end Pnet.Lib
