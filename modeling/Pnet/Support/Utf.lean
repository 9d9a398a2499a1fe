import Pnet.CTypes
import Pnet.Lib.Bits
import Pnet.Lib.PrefixCode

/-! UTF-8 and UTF-16 as `support/utf8.c` and `support/utf16.c` read and write them, and the two
conversions of `engine/lib_string.c`. Reading gives `none` where the C reads past its input.
Positions and lengths are taken to fit an `int`, and allocation to succeed. -/
namespace Pnet.Support
open Pnet.Lib

/-! ### UTF-8 -/

/-- The payload of a byte after the first. -/
def utf8Tail (str : List ILUInt8) (posn : Nat) : Option ILUInt64 :=
  str[posn]?.map fun ch => (ch &&& 0x3F).setWidth 64

/-- The character and the position after it. -/
def ilUTF8ReadChar (str : List ILUInt8) (len posn : Nat) : Option (ILUInt64 × Nat) := do
  let ch ← str[posn]?
  if ch &&& 0x80 = 0 then
    return (ch.setWidth 64, posn + 1)
  else if ch &&& 0xE0 = 0xC0 ∧ posn + 2 ≤ len then
    let ch1 ← utf8Tail str (posn + 1)
    return (((ch &&& 0x1F).setWidth 64 <<< 6) ||| ch1, posn + 2)
  else if ch &&& 0xF0 = 0xE0 ∧ posn + 3 ≤ len then
    let ch1 ← utf8Tail str (posn + 1)
    let ch2 ← utf8Tail str (posn + 2)
    return (((ch &&& 0x0F).setWidth 64 <<< 12) ||| (ch1 <<< 6) ||| ch2, posn + 3)
  else if ch &&& 0xF8 = 0xF0 ∧ posn + 4 ≤ len then
    let ch1 ← utf8Tail str (posn + 1)
    let ch2 ← utf8Tail str (posn + 2)
    let ch3 ← utf8Tail str (posn + 3)
    return (((ch &&& 0x07).setWidth 64 <<< 18) ||| (ch1 <<< 12) ||| (ch2 <<< 6) ||| ch3, posn + 4)
  else if ch &&& 0xFC = 0xF8 ∧ posn + 5 ≤ len then
    let ch1 ← utf8Tail str (posn + 1)
    let ch2 ← utf8Tail str (posn + 2)
    let ch3 ← utf8Tail str (posn + 3)
    let ch4 ← utf8Tail str (posn + 4)
    return (((ch &&& 0x03).setWidth 64 <<< 24) ||| (ch1 <<< 18) ||| (ch2 <<< 12) ||| (ch3 <<< 6) |||
      ch4, posn + 5)
  else if ch &&& 0xFC = 0xFC ∧ posn + 6 ≤ len then
    let ch1 ← utf8Tail str (posn + 1)
    let ch2 ← utf8Tail str (posn + 2)
    let ch3 ← utf8Tail str (posn + 3)
    let ch4 ← utf8Tail str (posn + 4)
    let ch5 ← utf8Tail str (posn + 5)
    return (((ch &&& 0x03).setWidth 64 <<< 30) ||| (ch1 <<< 24) ||| (ch2 <<< 18) ||| (ch3 <<< 12) |||
      (ch4 <<< 6) ||| ch5, posn + 6)
  else
    return (ch.setWidth 64, posn + 1)

/-- `0x80 | ((ch >> shift) & 0x3F)`. -/
def utf8TailByte (ch : ILUInt64) (shift : Nat) : ILUInt8 :=
  ((0x80 : ILUInt64) ||| ((ch >>> shift) &&& 0x3F)).setWidth 8

/-- The bytes that are left in the buffer, whose number is the C return value. -/
def ilUTF8WriteChar (ch : ILUInt64) : List ILUInt8 :=
  if ch = 0 then [0xC0, 0x80]
  else if ch < 0x80 then [ch.setWidth 8]
  else if ch < (1 : ILUInt64) <<< 11 then
    [((0xC0 : ILUInt64) ||| (ch >>> 6)).setWidth 8, utf8TailByte ch 0]
  else if ch < (1 : ILUInt64) <<< 16 then
    [((0xE0 : ILUInt64) ||| (ch >>> 12)).setWidth 8, utf8TailByte ch 6, utf8TailByte ch 0]
  else if ch < (1 : ILUInt64) <<< 21 then
    [((0xF0 : ILUInt64) ||| (ch >>> 18)).setWidth 8, utf8TailByte ch 12, utf8TailByte ch 6,
      utf8TailByte ch 0]
  else if ch < (1 : ILUInt64) <<< 26 then
    [((0xF8 : ILUInt64) ||| (ch >>> 24)).setWidth 8, utf8TailByte ch 18, utf8TailByte ch 12,
      utf8TailByte ch 6, utf8TailByte ch 0]
  else
    [((0xFC : ILUInt64) ||| (ch >>> 30)).setWidth 8, utf8TailByte ch 24, utf8TailByte ch 18,
      utf8TailByte ch 12, utf8TailByte ch 6, utf8TailByte ch 0]

/-- `ILUTF8WriteChar` with no buffer. -/
def utf8CharLength (ch : ILUInt64) : Nat :=
  if ch = 0 then 2
  else if ch < 0x80 then 1
  else if ch < (1 : ILUInt64) <<< 11 then 2
  else if ch < (1 : ILUInt64) <<< 16 then 3
  else if ch < (1 : ILUInt64) <<< 21 then 4
  else if ch < (1 : ILUInt64) <<< 26 then 5
  else 6

/-! ### UTF-16 -/

def ilUTF16ReadChar (str : List ILUInt16) (len posn : Nat) : Option (ILUInt64 × Nat) := do
  let unit ← str[posn]?
  let ch : ILUInt64 := unit.setWidth 64
  if ch < 0xD800 ∨ 0xDBFF < ch then return (ch, posn + 1)
  else if posn + 2 ≤ len then
    let low : ILUInt64 := (← str[posn + 1]?).setWidth 64
    if 0xDC00 ≤ low ∧ low ≤ 0xDFFF then
      return (((ch - 0xD800) <<< 10) + (low &&& 0x03FF) + 0x10000, posn + 2)
    else return (ch, posn + 1)
  else return (ch, posn + 1)

def ilUTF16WriteChar (ch : ILUInt64) : List ILUInt16 :=
  if ch < 0x10000 then [ch.setWidth 16]
  else if ch < 0x110000 then
    [(((ch - 0x10000) >>> 10) + 0xD800).setWidth 16, (((ch - 0x10000) &&& 0x03FF) + 0xDC00).setWidth 16]
  else []

/-- `ILUTF16WriteChar` with no buffer. -/
def utf16CharLength (ch : ILUInt64) : Nat :=
  if ch < 0x10000 then 1 else if ch < 0x110000 then 2 else 0

/-! ### Strings -/

/-- What a conversion allocates and what it writes there. -/
structure Converted (α : Type) where
  allocated : Nat
  written : List α

/-- The bytes before the terminating zero, which is written behind them. -/
def ilStringToUTF8 (str : List ILUInt16) : Option (Converted ILUInt8) :=
  (PrefixCode.readAll (ilUTF16ReadChar str str.length) str.length str.length 0).map fun chars =>
    ⟨(chars.map utf8CharLength).sum, chars.flatMap ilUTF8WriteChar⟩

def ilStringCreateUTF8Len (str : List ILUInt8) : Option (Converted ILUInt16) :=
  (PrefixCode.readAll (ilUTF8ReadChar str str.length) str.length str.length 0).map fun chars =>
    ⟨(chars.map utf16CharLength).sum, chars.flatMap ilUTF16WriteChar⟩

/-- `str` is the memory that a C string stands in, up to the first zero byte. -/
def ilStringCreateUTF8 (str : List ILUInt8) : Option (Converted ILUInt16) :=
  ilStringCreateUTF8Len (str.takeWhile (· ≠ 0))

end Pnet.Support

/-! ### Round trips

Strings survive the way to UTF-8 and back, surrogates without a partner included. -/
namespace Pnet.Support
open Pnet.Lib Pnet.Lib.Bits

/-! ### UTF-16 -/

theorem toNat_setWidth64 {w : Nat} (x : BitVec w) (hw : w ≤ 64) : (x.setWidth 64).toNat = x.toNat := by
  rw [BitVec.toNat_setWidth]
  exact Nat.mod_eq_of_lt (x.isLt.trans_le (Nat.pow_le_pow_right (by decide) hw))

theorem ilUTF16WriteChar_one (unit : ILUInt16) : ilUTF16WriteChar (unit.setWidth 64) = [unit] := by
  have hunit := unit.isLt
  have hch : (unit.setWidth 64 : ILUInt64) < 0x10000 := by
    rw [BitVec.lt_def, toNat_setWidth64 unit (by decide)]
    exact hunit
  unfold ilUTF16WriteChar
  rw [if_pos hch]
  simp

/-- The character of a surrogate pair. -/
theorem toNat_pair (high low : ILUInt64) (hhigh : 0xD800 ≤ high.toNat ∧ high.toNat ≤ 0xDBFF)
    (hlow : 0xDC00 ≤ low.toNat ∧ low.toNat ≤ 0xDFFF) :
    (((high - 0xD800) <<< 10) + (low &&& 0x03FF) + 0x10000).toNat =
      (high.toNat - 0xD800) * 1024 + (low.toNat - 0xDC00) + 0x10000 := by
  have hmask : (low &&& 0x03FF).toNat = low.toNat % 2 ^ 10 := toNat_and_mask low 0x03FF 10 rfl
  have hsub : (high - 0xD800).toNat = high.toNat - 0xD800 := by
    rw [BitVec.toNat_sub]
    simp
    omega
  have hshift : ((high - 0xD800) <<< 10).toNat = (high.toNat - 0xD800) * 2 ^ 10 := by
    rw [toNat_shiftLeft_of_lt _ _ (by rw [hsub]; omega), hsub]
  rw [BitVec.toNat_add, BitVec.toNat_add, hshift, hmask]
  simp
  omega

theorem ilUTF16WriteChar_pair (high low : ILUInt16)
    (hhigh : 0xD800 ≤ high.toNat ∧ high.toNat ≤ 0xDBFF)
    (hlow : 0xDC00 ≤ low.toNat ∧ low.toNat ≤ 0xDFFF) (ch : ILUInt64)
    (hch : ch.toNat = (high.toNat - 0xD800) * 1024 + (low.toNat - 0xDC00) + 0x10000) :
    ilUTF16WriteChar ch = [high, low] := by
  have hsub : (ch - 0x10000).toNat = (high.toNat - 0xD800) * 1024 + (low.toNat - 0xDC00) := by
    rw [BitVec.toNat_sub, hch]
    simp
    omega
  have hbig : ¬ ch < 0x10000 := by
    rw [BitVec.lt_def, hch]
    simp
  have hsmall : ch < 0x110000 := by
    rw [BitVec.lt_def, hch]
    simp
    omega
  have hfirst : (((ch - 0x10000) >>> 10) + 0xD800).setWidth 16 = high := by
    apply BitVec.eq_of_toNat_eq
    rw [BitVec.toNat_setWidth, BitVec.toNat_add, BitVec.toNat_ushiftRight, hsub,
      Nat.shiftRight_eq_div_pow]
    simp
    omega
  have hsecond : (((ch - 0x10000) &&& 0x03FF) + 0xDC00).setWidth 16 = low := by
    apply BitVec.eq_of_toNat_eq
    rw [BitVec.toNat_setWidth, BitVec.toNat_add, toNat_and_mask _ 0x03FF 10 rfl, hsub]
    simp
    omega
  unfold ilUTF16WriteChar
  rw [if_neg hbig, if_pos hsmall, hfirst, hsecond]

theorem ilUTF16WriteChar_ne_nil {ch : ILUInt64} (hch : ch.toNat < 0x110000) :
    ilUTF16WriteChar ch ≠ [] := by
  have hlt : ch < 0x110000 := hch
  unfold ilUTF16WriteChar
  split_ifs <;> simp

theorem getElem?_behind {α : Type} (pre post : List α) (k : Nat) :
    (pre ++ post)[pre.length + k]? = post[k]? := by
  rw [List.getElem?_append_right (Nat.le_add_right _ _), Nat.add_sub_cancel_left]

/-- A unit that does not begin a pair is a character of its own. -/
theorem ilUTF16ReadChar_one (pre rest : List ILUInt16) (unit : ILUInt16)
    (hlone : ∀ low, rest.head? = some low → 0xD800 ≤ unit.toNat → unit.toNat ≤ 0xDBFF →
      ¬ (0xDC00 ≤ low.toNat ∧ low.toNat ≤ 0xDFFF)) :
    ilUTF16ReadChar (pre ++ unit :: rest) (pre ++ unit :: rest).length pre.length =
      some (unit.setWidth 64, pre.length + 1) := by
  have hunit := getElem?_behind pre (unit :: rest) 0
  rw [Nat.add_zero, List.getElem?_cons_zero] at hunit
  unfold ilUTF16ReadChar
  rw [hunit]
  dsimp only [bind, pure, Option.bind_some]
  split_ifs with hplain hroom
  · rfl
  · obtain _ | ⟨low, rest⟩ := rest
    · rw [List.length_append, List.length_singleton] at hroom
      omega
    · rw [getElem?_behind pre (unit :: low :: rest) 1, List.getElem?_cons_succ,
        List.getElem?_cons_zero]
      dsimp only [Option.bind_some]
      rw [BitVec.lt_def, BitVec.lt_def, toNat_setWidth64 unit (by decide)] at hplain
      rw [if_neg]
      rw [BitVec.le_def, BitVec.le_def, toNat_setWidth64 low (by decide)]
      exact hlone low rfl (Nat.not_lt.1 fun h => hplain (.inl h))
        (Nat.not_lt.1 fun h => hplain (.inr h))
  · rfl

theorem ilUTF16ReadChar_pair (pre rest : List ILUInt16) (high low : ILUInt16)
    (hhigh : 0xD800 ≤ high.toNat ∧ high.toNat ≤ 0xDBFF)
    (hlow : 0xDC00 ≤ low.toNat ∧ low.toNat ≤ 0xDFFF) :
    ∃ ch : ILUInt64, ilUTF16ReadChar (pre ++ high :: low :: rest)
        (pre ++ high :: low :: rest).length pre.length = some (ch, pre.length + 2) ∧
      ch.toNat = (high.toNat - 0xD800) * 1024 + (low.toNat - 0xDC00) + 0x10000 := by
  have hfirst := getElem?_behind pre (high :: low :: rest) 0
  rw [Nat.add_zero, List.getElem?_cons_zero] at hfirst
  have hhigh64 := toNat_setWidth64 high (by decide)
  have hlow64 := toNat_setWidth64 low (by decide)
  have hpaired : ¬ ((high.setWidth 64 : ILUInt64) < 0xD800 ∨ 0xDBFF < (high.setWidth 64 : ILUInt64)) := by
    rw [BitVec.lt_def, BitVec.lt_def, hhigh64]
    exact not_or.2 ⟨Nat.not_lt.2 hhigh.1, Nat.not_lt.2 hhigh.2⟩
  have hsecond : 0xDC00 ≤ (low.setWidth 64 : ILUInt64) ∧ (low.setWidth 64 : ILUInt64) ≤ 0xDFFF := by
    rw [BitVec.le_def, BitVec.le_def, hlow64]
    exact hlow
  refine ⟨_, ?_, toNat_pair (high.setWidth 64) (low.setWidth 64) (by rwa [hhigh64])
    (by rwa [hlow64]) |>.trans (by rw [hhigh64, hlow64])⟩
  unfold ilUTF16ReadChar
  rw [hfirst]
  dsimp only [bind, pure, Option.bind_some]
  rw [if_neg hpaired, if_pos (by simp), getElem?_behind pre (high :: low :: rest) 1,
    List.getElem?_cons_succ, List.getElem?_cons_zero]
  dsimp only [Option.bind_some]
  rw [if_pos hsecond]

/-- Reading takes off the units that the character is written as. -/
theorem ilUTF16ReadChar_split (pre post : List ILUInt16) (hpost : post ≠ []) :
    ∃ ch post', ilUTF16ReadChar (pre ++ post) (pre ++ post).length pre.length =
        some (ch, pre.length + (ilUTF16WriteChar ch).length) ∧ ch.toNat < 0x110000 ∧
      ilUTF16WriteChar ch ≠ [] ∧ post = ilUTF16WriteChar ch ++ post' := by
  obtain ⟨unit, rest, rfl⟩ := List.exists_cons_of_ne_nil hpost
  have hunit := unit.isLt
  by_cases hpair : ∃ low rest', rest = low :: rest' ∧
      (0xD800 ≤ unit.toNat ∧ unit.toNat ≤ 0xDBFF) ∧ 0xDC00 ≤ low.toNat ∧ low.toNat ≤ 0xDFFF
  · obtain ⟨low, rest', rfl, hhigh, hlow⟩ := hpair
    obtain ⟨ch, hread, hch⟩ := ilUTF16ReadChar_pair pre rest' unit low hhigh hlow
    have hwrite := ilUTF16WriteChar_pair unit low hhigh hlow ch hch
    have hlt : ch.toNat < 0x110000 := by omega
    refine ⟨ch, rest', ?_, hlt, ilUTF16WriteChar_ne_nil hlt, ?_⟩
    · rw [hread, hwrite]
      rfl
    · rw [hwrite]
      rfl
  · have hlt : (unit.setWidth 64 : ILUInt64).toNat < 0x110000 := by
      rw [toNat_setWidth64 unit (by decide)]
      omega
    have hread := ilUTF16ReadChar_one pre rest unit (by
      intro low hhead hge hle hlow
      obtain ⟨rest', rfl⟩ := List.head?_eq_some_iff.1 hhead
      exact hpair ⟨low, rest', rfl, ⟨hge, hle⟩, hlow⟩)
    refine ⟨unit.setWidth 64, rest, ?_, hlt, ilUTF16WriteChar_ne_nil hlt, ?_⟩
    · rw [hread, ilUTF16WriteChar_one]
      rfl
    · rw [ilUTF16WriteChar_one]
      rfl

/-! ### UTF-8 -/

/-- The bytes by the number of bytes that the character takes. -/
theorem utf8_class (ch : ILUInt8) :
    (ch &&& 0x80 = 0 ↔ ch.toNat < 0x80) ∧
      (ch &&& 0xE0 = 0xC0 ↔ 0xC0 ≤ ch.toNat ∧ ch.toNat < 0xE0) ∧
      (ch &&& 0xF0 = 0xE0 ↔ 0xE0 ≤ ch.toNat ∧ ch.toNat < 0xF0) ∧
      (ch &&& 0xF8 = 0xF0 ↔ 0xF0 ≤ ch.toNat ∧ ch.toNat < 0xF8) := by
  have hlt := ch.isLt
  have h1 := and_eq_tag_iff ch 0x80 0 7 1 rfl rfl (by decide)
  have h2 := and_eq_tag_iff ch 0xE0 6 5 3 rfl rfl (by decide)
  have h3 := and_eq_tag_iff ch 0xF0 14 4 4 rfl rfl (by decide)
  have h4 := and_eq_tag_iff ch 0xF8 30 3 5 rfl rfl (by decide)
  refine ⟨h1.trans ?_, h2.trans ?_, h3.trans ?_, h4.trans ?_⟩ <;> omega

theorem toNat_headByte (ch tag : ILUInt64) (s k : Nat) (hch : ch.toNat / 2 ^ s < 2 ^ k)
    (htag : tag.toNat % 2 ^ k = 0) (hsum : tag.toNat + 2 ^ k ≤ 2 ^ 8) :
    ((tag ||| (ch >>> s)).setWidth 8).toNat = tag.toNat + ch.toNat / 2 ^ s := by
  have hshift : (ch >>> s).toNat = ch.toNat / 2 ^ s := by
    rw [BitVec.toNat_ushiftRight, Nat.shiftRight_eq_div_pow]
  rw [BitVec.toNat_setWidth, toNat_or_low tag _ k htag (by rwa [hshift]), hshift]
  exact Nat.mod_eq_of_lt (by omega)

theorem toNat_utf8TailByte (ch : ILUInt64) (s : Nat) :
    (utf8TailByte ch s).toNat = 0x80 + ch.toNat / 2 ^ s % 64 := by
  have hmask : ((ch >>> s) &&& 0x3F).toNat = ch.toNat / 2 ^ s % 2 ^ 6 := by
    rw [toNat_and_mask _ 0x3F 6 rfl, BitVec.toNat_ushiftRight, Nat.shiftRight_eq_div_pow]
  unfold utf8TailByte
  rw [BitVec.toNat_setWidth, toNat_or_low 0x80 _ 6 rfl (by rw [hmask]; omega), hmask]
  simp
  omega

/-- A byte after the first gives back the six bits that it was made of. -/
theorem utf8Tail_tailByte {str : List ILUInt8} {posn : Nat} {ch : ILUInt64} {s : Nat}
    (hbyte : str[posn]? = some (utf8TailByte ch s)) :
    ∃ tail, utf8Tail str posn = some tail ∧ tail.toNat = ch.toNat / 2 ^ s % 64 := by
  refine ⟨_, by unfold utf8Tail; rw [hbyte]; rfl, ?_⟩
  rw [toNat_setWidth64 _ (by decide), toNat_and_mask _ 0x3F 6 rfl, toNat_utf8TailByte]
  omega

/-- The payload of the first byte, moved to its place. -/
theorem toNat_headBits (ch mask : ILUInt8) (k s : Nat) (hmask : mask.toNat = 2 ^ k - 1)
    (hs : k + s ≤ 64) :
    ((ch &&& mask).setWidth 64 <<< s).toNat = ch.toNat % 2 ^ k * 2 ^ s := by
  have hand : ((ch &&& mask).setWidth 64).toNat = ch.toNat % 2 ^ k := by
    rw [toNat_setWidth64 _ (by decide), toNat_and_mask ch mask k hmask]
  rw [toNat_shiftLeft_of_lt, hand]
  rw [hand]
  calc ch.toNat % 2 ^ k * 2 ^ s < 2 ^ k * 2 ^ s :=
        Nat.mul_lt_mul_of_pos_right (Nat.mod_lt _ (Nat.two_pow_pos k)) (Nat.two_pow_pos s)
    _ = 2 ^ (k + s) := (Nat.pow_add 2 k s).symm
    _ ≤ 2 ^ 64 := Nat.pow_le_pow_right (by decide) hs

/-- Six more bits on the right. -/
theorem toNat_or_tail (acc tail : ILUInt64) (s : Nat) (hacc : acc.toNat % 2 ^ (s + 6) = 0)
    (htail : tail.toNat < 64) (hs : s ≤ 58) :
    (acc ||| (tail <<< s)).toNat = acc.toNat + tail.toNat * 2 ^ s := by
  have hlt : tail.toNat * 2 ^ s < 2 ^ (s + 6) := by
    rw [Nat.pow_add, Nat.mul_comm]
    exact Nat.mul_lt_mul_of_pos_left htail (Nat.two_pow_pos s)
  have hshift : (tail <<< s).toNat = tail.toNat * 2 ^ s :=
    toNat_shiftLeft_of_lt _ _ (hlt.trans_le (Nat.pow_le_pow_right (by decide) (by omega)))
  rw [toNat_or_low acc _ (s + 6) hacc (by rwa [hshift]), hshift]

section
variable {str : List ILUInt8} {len posn : Nat} {head : ILUInt8} {ch : ILUInt64}

theorem ilUTF8ReadChar_one (hbyte : str[posn]? = some head) (hhead : head.toNat = ch.toNat)
    (hlt : ch.toNat < 0x80) : ilUTF8ReadChar str len posn = some (ch, posn + 1) := by
  have hvalue : head.setWidth 64 = ch := by
    apply BitVec.eq_of_toNat_eq
    rw [toNat_setWidth64 head (by decide), hhead]
  unfold ilUTF8ReadChar
  rw [hbyte]
  dsimp only [bind, pure, Option.bind_some]
  rw [if_pos ((utf8_class head).1.2 (by omega)), hvalue]

theorem ilUTF8ReadChar_two (hbyte : str[posn]? = some head)
    (hhead : 0xC0 ≤ head.toNat ∧ head.toNat < 0xE0)
    (htail : str[posn + 1]? = some (utf8TailByte ch 0)) (hlen : posn + 2 ≤ len)
    (hch : ch.toNat / 64 = head.toNat % 32) :
    ilUTF8ReadChar str len posn = some (ch, posn + 2) := by
  obtain ⟨tail, htail, hvalue⟩ := utf8Tail_tailByte htail
  obtain ⟨h1, h2, -, -⟩ := utf8_class head
  have hjoin : ((head &&& 0x1F).setWidth 64 <<< 6) ||| tail = ch := by
    apply BitVec.eq_of_toNat_eq
    have hbits := toNat_headBits head 0x1F 5 6 rfl (by decide)
    rw [toNat_or_low _ tail 6 (by rw [hbits]; omega) (by omega), hbits, hvalue]
    omega
  unfold ilUTF8ReadChar
  rw [hbyte]
  dsimp only [bind, pure, Option.bind_some]
  rw [if_neg (fun h => by have := h1.1 h; omega), if_pos ⟨h2.2 hhead, hlen⟩, htail]
  dsimp only [Option.bind_some]
  rw [hjoin]

theorem ilUTF8ReadChar_three (hbyte : str[posn]? = some head)
    (hhead : 0xE0 ≤ head.toNat ∧ head.toNat < 0xF0)
    (htail1 : str[posn + 1]? = some (utf8TailByte ch 6))
    (htail2 : str[posn + 2]? = some (utf8TailByte ch 0)) (hlen : posn + 3 ≤ len)
    (hch : ch.toNat / 2 ^ 12 = head.toNat % 16) :
    ilUTF8ReadChar str len posn = some (ch, posn + 3) := by
  obtain ⟨tail1, htail1, hvalue1⟩ := utf8Tail_tailByte htail1
  obtain ⟨tail2, htail2, hvalue2⟩ := utf8Tail_tailByte htail2
  obtain ⟨h1, h2, h3, -⟩ := utf8_class head
  have hjoin : ((head &&& 0x0F).setWidth 64 <<< 12) ||| (tail1 <<< 6) ||| tail2 = ch := by
    apply BitVec.eq_of_toNat_eq
    have hbits := toNat_headBits head 0x0F 4 12 rfl (by decide)
    have hbits1 := toNat_or_tail _ tail1 6 (show _ % 2 ^ 12 = 0 by rw [hbits]; omega) (by omega)
      (by decide)
    rw [toNat_or_low _ tail2 6 (by rw [hbits1, hbits]; omega) (by omega), hbits1, hbits, hvalue1,
      hvalue2]
    omega
  unfold ilUTF8ReadChar
  rw [hbyte]
  dsimp only [bind, pure, Option.bind_some]
  rw [if_neg (fun h => by have := h1.1 h; omega), if_neg (fun h => by have := h2.1 h.1; omega),
    if_pos ⟨h3.2 hhead, hlen⟩, htail1, htail2]
  dsimp only [Option.bind_some]
  rw [hjoin]

theorem ilUTF8ReadChar_four (hbyte : str[posn]? = some head)
    (hhead : 0xF0 ≤ head.toNat ∧ head.toNat < 0xF8)
    (htail1 : str[posn + 1]? = some (utf8TailByte ch 12))
    (htail2 : str[posn + 2]? = some (utf8TailByte ch 6))
    (htail3 : str[posn + 3]? = some (utf8TailByte ch 0)) (hlen : posn + 4 ≤ len)
    (hch : ch.toNat / 2 ^ 18 = head.toNat % 8) :
    ilUTF8ReadChar str len posn = some (ch, posn + 4) := by
  obtain ⟨tail1, htail1, hvalue1⟩ := utf8Tail_tailByte htail1
  obtain ⟨tail2, htail2, hvalue2⟩ := utf8Tail_tailByte htail2
  obtain ⟨tail3, htail3, hvalue3⟩ := utf8Tail_tailByte htail3
  obtain ⟨h1, h2, h3, h4⟩ := utf8_class head
  have hjoin : ((head &&& 0x07).setWidth 64 <<< 18) ||| (tail1 <<< 12) ||| (tail2 <<< 6) ||| tail3 =
      ch := by
    apply BitVec.eq_of_toNat_eq
    have hbits := toNat_headBits head 0x07 3 18 rfl (by decide)
    have hbits1 := toNat_or_tail _ tail1 12 (show _ % 2 ^ 18 = 0 by rw [hbits]; omega) (by omega)
      (by decide)
    have hbits2 := toNat_or_tail _ tail2 6 (show _ % 2 ^ 12 = 0 by rw [hbits1, hbits]; omega)
      (by omega) (by decide)
    rw [toNat_or_low _ tail3 6 (by rw [hbits2, hbits1, hbits]; omega) (by omega), hbits2, hbits1,
      hbits, hvalue1, hvalue2, hvalue3]
    omega
  unfold ilUTF8ReadChar
  rw [hbyte]
  dsimp only [bind, pure, Option.bind_some]
  rw [if_neg (fun h => by have := h1.1 h; omega), if_neg (fun h => by have := h2.1 h.1; omega),
    if_neg (fun h => by have := h3.1 h.1; omega), if_pos ⟨h4.2 hhead, hlen⟩, htail1, htail2, htail3]
  dsimp only [Option.bind_some]
  rw [hjoin]

end

/-- What is written is read again, whatever stands around it. -/
theorem ilUTF8ReadChar_write {input pre post : List ILUInt8} {ch : ILUInt64}
    (hch : ch.toNat < 2 ^ 21) (hinput : input = pre ++ ilUTF8WriteChar ch ++ post) :
    ilUTF8ReadChar input input.length pre.length =
      some (ch, pre.length + (ilUTF8WriteChar ch).length) := by
  have hlength := congrArg List.length hinput
  rw [List.length_append, List.length_append] at hlength
  have hbyte (k : Nat) (hk : k < (ilUTF8WriteChar ch).length) :
      input[pre.length + k]? = (ilUTF8WriteChar ch)[k]? := by
    rw [hinput, List.append_assoc, getElem?_behind, List.getElem?_append_left hk]
  have hbyte0 := hbyte 0
  rw [Nat.add_zero] at hbyte0
  revert hlength hbyte hbyte0
  clear hinput
  unfold ilUTF8WriteChar
  split_ifs with hzero hone htwo hthree hfour hfive
  · intro hlength hbyte hbyte0
    subst hzero
    exact ilUTF8ReadChar_two (hbyte0 (by decide)) (by decide) (hbyte 1 (by decide))
      (by rw [hlength]; exact Nat.le_add_right _ _) (by decide)
  · intro hlength hbyte hbyte0
    have hlt : ch.toNat < 0x80 := hone
    refine ilUTF8ReadChar_one (hbyte0 Nat.zero_lt_one) ?_ hlt
    rw [BitVec.toNat_setWidth, Nat.mod_eq_of_lt (by omega)]
  · intro hlength hbyte hbyte0
    have hlt : ch.toNat < 2 ^ 11 := htwo
    have hge : ¬ ch.toNat < 0x80 := hone
    have hhead := toNat_headByte ch 0xC0 6 5 (by omega) rfl (by decide)
    rw [show (0xC0 : ILUInt64).toNat = 0xC0 from rfl] at hhead
    exact ilUTF8ReadChar_two (hbyte0 Nat.zero_lt_two) (by omega) (hbyte 1 Nat.one_lt_two)
      (by rw [hlength]; exact Nat.le_add_right _ _) (by omega)
  · intro hlength hbyte hbyte0
    have hlt : ch.toNat < 2 ^ 16 := hthree
    have hhead := toNat_headByte ch 0xE0 12 4 (by omega) rfl (by decide)
    rw [show (0xE0 : ILUInt64).toNat = 0xE0 from rfl] at hhead
    exact ilUTF8ReadChar_three (hbyte0 (by simp)) (by omega) (hbyte 1 (by simp))
      (hbyte 2 (by simp)) (by rw [hlength]; exact Nat.le_add_right _ _) (by omega)
  · intro hlength hbyte hbyte0
    have hhead := toNat_headByte ch 0xF0 18 3 (by omega) rfl (by decide)
    rw [show (0xF0 : ILUInt64).toNat = 0xF0 from rfl] at hhead
    exact ilUTF8ReadChar_four (hbyte0 (by simp)) (by omega) (hbyte 1 (by simp))
      (hbyte 2 (by simp)) (hbyte 3 (by simp)) (by rw [hlength]; exact Nat.le_add_right _ _)
      (by omega)
  · exact absurd hch hfour
  · exact absurd hch hfour

theorem ilUTF8WriteChar_ne_nil (ch : ILUInt64) : ilUTF8WriteChar ch ≠ [] := by
  unfold ilUTF8WriteChar
  split_ifs <;> exact List.cons_ne_nil _ _

theorem length_ilUTF8WriteChar (ch : ILUInt64) :
    (ilUTF8WriteChar ch).length = utf8CharLength ch := by
  unfold ilUTF8WriteChar utf8CharLength
  split_ifs <;> rfl

theorem length_ilUTF16WriteChar (ch : ILUInt64) :
    (ilUTF16WriteChar ch).length = utf16CharLength ch := by
  unfold ilUTF16WriteChar utf16CharLength
  split_ifs <;> rfl

theorem forall_mem_pair {α : Type} {p : α → Prop} {a b : α} : (∀ x ∈ [a, b], p x) ↔ p a ∧ p b := by
  rw [List.forall_mem_cons, List.forall_mem_singleton]

theorem utf8TailByte_ne_zero (ch : ILUInt64) (s : Nat) : utf8TailByte ch s ≠ 0 := by
  intro h
  have hbyte := toNat_utf8TailByte ch s
  rw [h, BitVec.ofNat_eq_ofNat, BitVec.toNat_zero] at hbyte
  omega

theorem headByte_ne_zero (ch tag : ILUInt64) (s k : Nat) (hch : ch.toNat / 2 ^ s < 2 ^ k)
    (htag : tag.toNat % 2 ^ k = 0) (hsum : tag.toNat + 2 ^ k ≤ 2 ^ 8) (hpos : 0 < tag.toNat) :
    (tag ||| (ch >>> s)).setWidth 8 ≠ 0 := by
  intro h
  have hbyte := toNat_headByte ch tag s k hch htag hsum
  rw [h, BitVec.ofNat_eq_ofNat, BitVec.toNat_zero] at hbyte
  exact absurd hbyte (Nat.add_pos_left hpos _).ne

/-- A zero byte never stands for a character, so it can end a string. -/
theorem zero_notMem_ilUTF8WriteChar {ch : ILUInt64} (hch : ch.toNat < 2 ^ 21) :
    ∀ byte ∈ ilUTF8WriteChar ch, byte ≠ 0 := by
  unfold ilUTF8WriteChar
  split_ifs with hzero hone htwo hthree hfour hfive
  · simp
  · rw [List.forall_mem_singleton]
    intro h
    have hlt : ch.toNat < 0x80 := hone
    have hbyte := congrArg BitVec.toNat h
    rw [BitVec.toNat_setWidth, BitVec.ofNat_eq_ofNat, BitVec.toNat_zero,
      Nat.mod_eq_of_lt (by omega)] at hbyte
    exact hzero (BitVec.eq_of_toNat_eq hbyte)
  · have hlt : ch.toNat < 2 ^ 11 := htwo
    exact forall_mem_pair.2
      ⟨headByte_ne_zero ch 0xC0 6 5 (by omega) rfl (by decide) (by decide), utf8TailByte_ne_zero ch 0⟩
  · have hlt : ch.toNat < 2 ^ 16 := hthree
    exact List.forall_mem_cons.2
      ⟨headByte_ne_zero ch 0xE0 12 4 (by omega) rfl (by decide) (by decide),
        forall_mem_pair.2 ⟨utf8TailByte_ne_zero ch 6, utf8TailByte_ne_zero ch 0⟩⟩
  · exact List.forall_mem_cons.2
      ⟨headByte_ne_zero ch 0xF0 18 3 (by omega) rfl (by decide) (by decide),
        List.forall_mem_cons.2 ⟨utf8TailByte_ne_zero ch 12,
          forall_mem_pair.2 ⟨utf8TailByte_ne_zero ch 6, utf8TailByte_ne_zero ch 0⟩⟩⟩
  · exact absurd hch hfour
  · exact absurd hch hfour

theorem utf8Tail_of_lt {str : List ILUInt8} {posn : Nat} (hposn : posn < str.length) :
    ∃ tail, utf8Tail str posn = some tail := by
  unfold utf8Tail
  rw [List.getElem?_eq_getElem hposn]
  exact ⟨_, rfl⟩

/-- Every call moves on, and stays within the string. -/
theorem ilUTF8ReadChar_progress {str : List ILUInt8} {len posn : Nat} (hposn : posn < len)
    (hlen : len ≤ str.length) :
    ∃ ch posn', ilUTF8ReadChar str len posn = some (ch, posn') ∧ posn < posn' ∧ posn' ≤ len := by
  have htail (k : Nat) (hk : posn + (k + 1) ≤ len) := utf8Tail_of_lt (show posn + k < str.length by omega)
  unfold ilUTF8ReadChar
  rw [List.getElem?_eq_getElem (hposn.trans_le hlen)]
  dsimp only [bind, pure, Option.bind_some]
  generalize str[posn] = head
  by_cases h1 : head &&& 0x80 = 0
  · rw [if_pos h1]
    exact ⟨_, _, rfl, by omega, by omega⟩
  rw [if_neg h1]
  by_cases h2 : head &&& 0xE0 = 0xC0 ∧ posn + 2 ≤ len
  · obtain ⟨tail1, htail1⟩ := htail 1 h2.2
    rw [if_pos h2, htail1]
    exact ⟨_, _, rfl, by omega, by omega⟩
  rw [if_neg h2]
  by_cases h3 : head &&& 0xF0 = 0xE0 ∧ posn + 3 ≤ len
  · obtain ⟨tail1, htail1⟩ := htail 1 (by omega)
    obtain ⟨tail2, htail2⟩ := htail 2 h3.2
    rw [if_pos h3, htail1, htail2]
    exact ⟨_, _, rfl, by omega, by omega⟩
  rw [if_neg h3]
  by_cases h4 : head &&& 0xF8 = 0xF0 ∧ posn + 4 ≤ len
  · obtain ⟨tail1, htail1⟩ := htail 1 (by omega)
    obtain ⟨tail2, htail2⟩ := htail 2 (by omega)
    obtain ⟨tail3, htail3⟩ := htail 3 h4.2
    rw [if_pos h4, htail1, htail2, htail3]
    exact ⟨_, _, rfl, by omega, by omega⟩
  rw [if_neg h4]
  by_cases h5 : head &&& 0xFC = 0xF8 ∧ posn + 5 ≤ len
  · obtain ⟨tail1, htail1⟩ := htail 1 (by omega)
    obtain ⟨tail2, htail2⟩ := htail 2 (by omega)
    obtain ⟨tail3, htail3⟩ := htail 3 (by omega)
    obtain ⟨tail4, htail4⟩ := htail 4 h5.2
    rw [if_pos h5, htail1, htail2, htail3, htail4]
    exact ⟨_, _, rfl, by omega, by omega⟩
  rw [if_neg h5]
  by_cases h6 : head &&& 0xFC = 0xFC ∧ posn + 6 ≤ len
  · obtain ⟨tail1, htail1⟩ := htail 1 (by omega)
    obtain ⟨tail2, htail2⟩ := htail 2 (by omega)
    obtain ⟨tail3, htail3⟩ := htail 3 (by omega)
    obtain ⟨tail4, htail4⟩ := htail 4 (by omega)
    obtain ⟨tail5, htail5⟩ := htail 5 h6.2
    rw [if_pos h6, htail1, htail2, htail3, htail4, htail5]
    exact ⟨_, _, rfl, by omega, by omega⟩
  rw [if_neg h6]
  exact ⟨_, _, rfl, by omega, by omega⟩

/-! ### Strings -/

theorem sum_map_length {α β : Type} (encode : α → List β) (items : List α) :
    (items.map fun item => (encode item).length).sum = (items.flatMap encode).length :=
  List.length_flatMap.symm

/-- The characters of a string, and what becomes of them. -/
theorem ilStringToUTF8_chars (str : List ILUInt16) :
    ∃ chars : List ILUInt64, (∀ ch ∈ chars, ch.toNat < 0x110000) ∧
      chars.flatMap ilUTF16WriteChar = str ∧
      ilStringToUTF8 str =
        some ⟨(chars.flatMap ilUTF8WriteChar).length, chars.flatMap ilUTF8WriteChar⟩ := by
  have hsplit (pre post : List ILUInt16) (hinput : str = pre ++ post) (hpost : post ≠ []) :
      ∃ ch post', ilUTF16ReadChar str str.length pre.length =
          some (ch, pre.length + (ilUTF16WriteChar ch).length) ∧ ch.toNat < 0x110000 ∧
        ilUTF16WriteChar ch ≠ [] ∧ post = ilUTF16WriteChar ch ++ post' := by
    subst hinput
    exact ilUTF16ReadChar_split pre post hpost
  obtain ⟨chars, hread, hchars, hstr⟩ :=
    PrefixCode.readAll_split hsplit (List.nil_append str).symm le_rfl
  refine ⟨chars, hchars, hstr, ?_⟩
  unfold ilStringToUTF8
  rw [show (0 : Nat) = ([] : List ILUInt16).length from rfl, hread, ← sum_map_length]
  simp only [Option.map_some, length_ilUTF8WriteChar]

theorem ilStringCreateUTF8_chars {chars : List ILUInt64} (hchars : ∀ ch ∈ chars, ch.toNat < 0x110000)
    (rest : List ILUInt8) :
    ilStringCreateUTF8 (chars.flatMap ilUTF8WriteChar ++ 0 :: rest) =
      some ⟨(chars.flatMap ilUTF16WriteChar).length, chars.flatMap ilUTF16WriteChar⟩ := by
  have hsmall {ch : ILUInt64} (hch : ch ∈ chars) : ch.toNat < 2 ^ 21 :=
    (hchars ch hch).trans_le (by decide)
  have hstr : (chars.flatMap ilUTF8WriteChar ++ 0 :: rest).takeWhile (· ≠ 0) =
      chars.flatMap ilUTF8WriteChar := by
    rw [List.takeWhile_append_of_pos, List.takeWhile_cons_of_neg (by simp), List.append_nil]
    intro byte hbyte
    obtain ⟨ch, hch, hbyte⟩ := List.mem_flatMap.1 hbyte
    exact decide_eq_true (zero_notMem_ilUTF8WriteChar (hsmall hch) byte hbyte)
  have hread : PrefixCode.readAll
      (ilUTF8ReadChar (chars.flatMap ilUTF8WriteChar) (chars.flatMap ilUTF8WriteChar).length)
      (chars.flatMap ilUTF8WriteChar).length (chars.flatMap ilUTF8WriteChar).length
      ([] : List ILUInt8).length = some chars :=
    PrefixCode.readAll_flatMap (fun pre ch post hch hinput => ilUTF8ReadChar_write (hsmall hch) hinput)
      (fun ch _ => ilUTF8WriteChar_ne_nil ch) (List.nil_append _).symm (Nat.sub_le _ _)
  unfold ilStringCreateUTF8 ilStringCreateUTF8Len
  rw [hstr, show (0 : Nat) = ([] : List ILUInt8).length from rfl, hread]
  rw [← sum_map_length]
  simp only [Option.map_some, length_ilUTF16WriteChar]

/-- To UTF-8 and back, with as many places written on both ways as were allocated, and every
read of UTF-8 moves on within its string. -/
theorem ilStringCreateUTF8_ilStringToUTF8 (str : List ILUInt16) :
    (∃ utf8 back, ilStringToUTF8 str = some utf8 ∧ utf8.written.length = utf8.allocated ∧
      ilStringCreateUTF8 (utf8.written ++ [0]) = some back ∧ back.written = str ∧
      back.allocated = str.length) ∧
    ∀ (bytes : List ILUInt8) (len posn : Nat), posn < len → len ≤ bytes.length →
      ∃ ch posn', ilUTF8ReadChar bytes len posn = some (ch, posn') ∧ posn < posn' ∧ posn' ≤ len := by
  constructor
  · obtain ⟨chars, hchars, hstr, hutf8⟩ := ilStringToUTF8_chars str
    refine ⟨_, _, hutf8, rfl, ilStringCreateUTF8_chars hchars [], hstr, ?_⟩
    rw [hstr]
  · intro bytes len posn hposn hlen
    exact ilUTF8ReadChar_progress hposn hlen

/-- A pair, a low surrogate before a high one, and a zero; and a string that ends too early. -/
theorem ilStringCreateUTF8_ilStringToUTF8_surrogates :
    (∃ utf8 back, ilStringToUTF8 [0xD800, 0xDC00, 0xDC00, 0xD800, 0] = some utf8 ∧
      ilStringCreateUTF8 (utf8.written ++ [0]) = some back ∧
      back.written = [0xD800, 0xDC00, 0xDC00, 0xD800, 0]) ∧
    ∃ ch posn', ilUTF8ReadChar [0xE3, 0x81] 2 0 = some (ch, posn') ∧ 0 < posn' ∧ posn' ≤ 2 := by
  have h := ilStringCreateUTF8_ilStringToUTF8 [0xD800, 0xDC00, 0xDC00, 0xD800, 0]
  obtain ⟨⟨utf8, back, hutf8, -, hback, hstr, -⟩, hprogress⟩ := h
  exact ⟨⟨utf8, back, hutf8, hback, hstr⟩, hprogress [0xE3, 0x81] 2 0 (by decide) (by decide)⟩

example : ilStringToUTF8 [0xD800, 0xDC00, 0xDC00, 0] =
    some ⟨9, [0xF0, 0x90, 0x80, 0x80, 0xED, 0xB0, 0x80, 0xC0, 0x80]⟩ := by rfl

end Pnet.Support
