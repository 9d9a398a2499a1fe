import Mathlib.Algebra.Order.Ring.Rat
import Mathlib.Data.BitVec

/-! The fixed-width integer types the sources are written in. `+`, `-`, `*` and
the shifts wrap as they do there; `<` and `≤` compare unsigned, and a signed
comparison goes through `BitVec.toInt`. -/
namespace Pnet

abbrev ILInt8 := BitVec 8
abbrev ILUInt8 := BitVec 8
abbrev ILInt16 := BitVec 16
abbrev ILUInt16 := BitVec 16
abbrev ILUInt32 := BitVec 32
abbrev ILInt32 := BitVec 32
abbrev ILInt64 := BitVec 64
abbrev ILUInt64 := BitVec 64

end Pnet

/-! ### Floating-point values

The floating-point values as the comparisons see them: their order, and the values that
have none. -/
namespace Pnet

inductive ILNativeFloat where
  | nan
  | negInfinity
  | finite (value : ℚ)
  | posInfinity
deriving DecidableEq

namespace ILNativeFloat

def ilNativeFloatIsNaN : ILNativeFloat → Bool
  | nan => true
  | _ => false

/-- The C operator `<`. -/
def lt : ILNativeFloat → ILNativeFloat → Bool
  | nan, _ => false
  | _, nan => false
  | negInfinity, negInfinity => false
  | negInfinity, _ => true
  | finite _, negInfinity => false
  | finite a, finite b => a < b
  | finite _, posInfinity => true
  | posInfinity, _ => false

end ILNativeFloat

end Pnet
