import Pnet.Lib.ByteWindow

/-! Files with a position, and what a program may rely on when the calls that it makes can fail: a
call that succeeds has done what it is for, and between a read and a write there is a seek. -/
namespace Pnet.Lib

inductive FileMode where
  | ready | reading | writing
deriving DecidableEq, Repr

/-- The calls on files `F`. A seek returns whether it succeeded, and a write how many bytes were
written; a read that fails returns fewer bytes than it was asked for. -/
structure Stdio (F : Type) where
  bytes : F → List (BitVec 8)
  posn : F → Nat
  mode : F → FileMode
  fseek : F → Nat → Bool × F
  fwrite : F → List (BitVec 8) → Nat × F
  fread : F → Nat → List (BitVec 8) × F
  fseek_spec : ∀ {f f' : F} {posn' : Nat}, posn' ≤ (bytes f).length → fseek f posn' = (true, f') →
    bytes f' = bytes f ∧ posn f' = posn' ∧ mode f' = .ready
  fwrite_spec : ∀ {f f' : F} {part : List (BitVec 8)}, mode f ≠ .reading →
    posn f ≤ (bytes f).length → fwrite f part = (part.length, f') →
    bytes f' = patch (bytes f) (posn f) part ∧ posn f' = posn f + part.length ∧ mode f' = .writing
  fread_spec : ∀ {f f' : F} {size : Nat} {part : List (BitVec 8)}, mode f ≠ .writing →
    fread f size = (part, f') →
    bytes f' = bytes f ∧ (part.length = size → part = ((bytes f).drop (posn f)).take size)

namespace Stdio

/-- A file that has just been made. -/
structure Fresh {F : Type} (io : Stdio F) (f : F) : Prop where
  bytes_eq : io.bytes f = []
  posn_eq : io.posn f = 0
  mode_ne : io.mode f ≠ .reading

structure File where
  bytes : List (BitVec 8) := []
  posn : Nat := 0
  mode : FileMode := .ready
deriving DecidableEq, Repr

/-- Files on which only reads can fail, and do when the file was not opened for them. -/
def file (readable : Bool) : Stdio File where
  bytes := File.bytes
  posn := File.posn
  mode := File.mode
  fseek f posn := (true, ⟨f.bytes, posn, .ready⟩)
  fwrite f part := (part.length, ⟨patch f.bytes f.posn part, f.posn + part.length, .writing⟩)
  fread f size :=
    let part := if readable then (f.bytes.drop f.posn).take size else []
    (part, ⟨f.bytes, f.posn + part.length, .reading⟩)
  fseek_spec := by
    rintro f f' posn' - h
    cases h
    exact ⟨rfl, rfl, rfl⟩
  fwrite_spec := by
    rintro f f' part - - h
    cases h
    exact ⟨rfl, rfl, rfl⟩
  fread_spec := by
    rintro f f' size part - h
    cases h
    refine ⟨rfl, fun hlength => ?_⟩
    cases readable with
    | true => rfl
    | false =>
      rw [if_neg Bool.false_ne_true] at hlength ⊢
      rw [← hlength, List.length_nil, List.take_zero]

theorem fresh_file (readable : Bool) : (file readable).Fresh {} := ⟨rfl, rfl, nofun⟩

end Stdio

end Pnet.Lib
