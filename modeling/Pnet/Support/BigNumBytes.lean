import Pnet.Lib.Bits
import Pnet.Support.BigNumArith

/-! Big numbers from and to bytes, most significant first. Together with the signed sums
and differences: what is exact, and where an `ILInt32` runs out. -/
namespace Pnet.Support
open Pnet.Lib

/-! ### The conversions -/

/-- The `switch` on `numBytes % 4`: the word that the first bytes make up. -/
def partialWord : Nat → List ILUInt8 → List ILUInt32
  | 1, b0 :: _ => [b0.setWidth 32]
  | 2, b0 :: b1 :: _ => [(b0.setWidth 32 <<< 8) ||| b1.setWidth 32]
  | 3, b0 :: b1 :: b2 :: _ =>
    [(b0.setWidth 32 <<< 16) ||| (b1.setWidth 32 <<< 8) ||| b2.setWidth 32]
  | _, _ => []

/-- The whole words, most significant first. -/
def wholeWords : List ILUInt8 → List ILUInt32
  | b0 :: b1 :: b2 :: b3 :: bytes =>
    ((b0.setWidth 32 <<< 24) ||| (b1.setWidth 32 <<< 16) ||| (b2.setWidth 32 <<< 8) |||
      b3.setWidth 32) :: wholeWords bytes
  | _ => []

/-- `numBytes` is the length as an `ILInt32`, and so is the number of words that are
allocated. -/
def ilBigNumFromBytes (bytes : List ILUInt8) : ILBigNum :=
  let numBytes : ILInt32 := BitVec.ofNat 32 bytes.length
  let size := (numBytes + 3).sdiv 4
  if size.sle 0 then ilBigNumFromInt 0
  else
    let extra := bytes.length % 4
    normalizeBigNum ⟨false, (partialWord extra bytes ++ wholeWords (bytes.drop extra)).reverse⟩

def byteAt (word : ILUInt32) (k : Nat) : ILUInt8 := (word >>> k).setWidth 8

def wordBytes (word : ILUInt32) : List ILUInt8 :=
  [byteAt word 24, byteAt word 16, byteAt word 8, byteAt word 0]

/-- The top word without its leading zero bytes. -/
def topBytes (top : ILUInt32) : List ILUInt8 :=
  if top &&& 0xFF000000 = 0 then
    if top &&& 0x00FF0000 ≠ 0 then [byteAt top 16, byteAt top 8, byteAt top 0]
    else if top &&& 0x0000FF00 ≠ 0 then [byteAt top 8, byteAt top 0]
    else [byteAt top 0]
  else wordBytes top

def ilBigNumByteCount (num : ILBigNum) : ILInt32 :=
  let numBytes : ILInt32 := BitVec.ofNat 32 num.size * 4
  match num.words.reverse with
  | top :: _ =>
    if top &&& 0xFF000000 = 0 then
      if top &&& 0x00FF0000 ≠ 0 then numBytes - 1
      else if top &&& 0x0000FF00 ≠ 0 then numBytes - 2
      else numBytes - 3
    else numBytes
  | [] => 1

/-- The bytes that are written. -/
def ilBigNumToBytes (num : ILBigNum) : List ILUInt8 :=
  match num.words.reverse with
  | top :: words => topBytes top ++ words.flatMap wordBytes
  | [] => [0]

/-! ### From bytes -/

theorem toNat_wholeWord (b0 b1 b2 b3 : ILUInt8) (bytes : List ILUInt8) :
    BigEndian.value (b0 :: b1 :: b2 :: b3 :: bytes) =
      (2 ^ 8) ^ bytes.length * ((b0.setWidth 32 <<< 24) ||| (b1.setWidth 32 <<< 16) |||
        (b2.setWidth 32 <<< 8) ||| b3.setWidth 32).toNat + BigEndian.value bytes := by
  rw [Bits.toNat_join4]
  simp only [BigEndian.value_cons, List.length_cons]
  ring

theorem value_wholeWords (n : Nat) (bytes : List ILUInt8) (hlen : bytes.length = 4 * n) :
    (wholeWords bytes).length = n ∧
      BigEndian.value (wholeWords bytes) = BigEndian.value bytes := by
  induction n generalizing bytes with
  | zero =>
    rw [List.eq_nil_of_length_eq_zero hlen]
    exact ⟨rfl, rfl⟩
  | succ n ih =>
    match bytes with
    | [] | [_] | [_, _] | [_, _, _] =>
      simp only [List.length_cons, List.length_nil] at hlen
      omega
    | b0 :: b1 :: b2 :: b3 :: bytes =>
      have htail : bytes.length = 4 * n := by
        simp only [List.length_cons] at hlen
        omega
      obtain ⟨ihlen, ihvalue⟩ := ih bytes htail
      refine ⟨congrArg (· + 1) ihlen, ?_⟩
      rw [toNat_wholeWord, wholeWords, BigEndian.value_cons, ihlen, ihvalue, htail,
        Nat.pow_mul, ← Nat.pow_mul 2 8 4]

theorem value_partialWord {extra : Nat} (hextra : extra < 4) {bytes : List ILUInt8}
    (hle : extra ≤ bytes.length) :
    BigEndian.value (partialWord extra bytes) = BigEndian.value (bytes.take extra) := by
  match extra, hextra, bytes with
  | 0, _, _ => rfl
  | 1, _, b0 :: _ => simp [partialWord, Nat.mod_eq_of_lt (show b0.toNat < 4294967296 by omega)]
  | 2, _, b0 :: b1 :: _ =>
    have hjoin := Bits.toNat_join2 b0 b1
    simp only [partialWord, List.take, BigEndian.value_cons, BigEndian.value_nil, List.length_cons,
      List.length_nil, hjoin]
    omega
  | 3, _, b0 :: b1 :: b2 :: _ =>
    have hjoin := Bits.toNat_join4 0 b0 b1 b2
    rw [show (0 : ILUInt8).setWidth 32 <<< 24 = (0#32) from rfl, BitVec.zero_or] at hjoin
    simp only [partialWord, List.take, BigEndian.value_cons, BigEndian.value_nil, List.length_cons,
      List.length_nil, hjoin]
    simp
    omega
  | 1, _, [] => simp at hle
  | 2, _, [] => simp at hle
  | 2, _, [_] => simp at hle
  | 3, _, [] => simp at hle
  | 3, _, [_] => simp at hle
  | 3, _, [_, _] => simp at hle

theorem length_partialWord {extra : Nat} (hextra : extra < 4) {bytes : List ILUInt8}
    (hle : extra ≤ bytes.length) : (partialWord extra bytes).length = (extra + 3) / 4 := by
  match extra, hextra, bytes with
  | 0, _, _ => rfl
  | 1, _, _ :: _ => rfl
  | 2, _, _ :: _ :: _ => rfl
  | 3, _, _ :: _ :: _ :: _ => rfl
  | 1, _, [] => simp at hle
  | 2, _, [] => simp at hle
  | 2, _, [_] => simp at hle
  | 3, _, [] => simp at hle
  | 3, _, [_] => simp at hle
  | 3, _, [_, _] => simp at hle

/-- The number of words that are allocated is not above zero: there are no bytes, or so
many that rounding up wraps. -/
theorem noWords_iff {n : Nat} (hn : n < 2 ^ 31) :
    ((BitVec.ofNat 32 n + 3).sdiv 4).sle 0 = true ↔ n = 0 ∨ 2 ^ 31 ≤ n + 3 := by
  have hnat : (BitVec.ofNat 32 n + 3).toNat = n + 3 := by
    rw [BitVec.toNat_add, BitVec.toNat_ofNat, show (3 : BitVec 32).toNat = 3 from rfl]
    omega
  have hint : (BitVec.ofNat 32 n + 3).toInt =
      if n + 3 < 2 ^ 31 then (n : Int) + 3 else (n : Int) + 3 - 2 ^ 32 := by
    rw [BitVec.toInt_eq_toNat_cond, hnat]
    split_ifs <;> omega
  rw [BitVec.sle_iff_toInt_le, BitVec.toInt_sdiv, hint, show (4 : BitVec 32).toInt = 4 from rfl,
    show (0 : BitVec 32).toInt = 0 from rfl]
  split_ifs with hlt
  · have hdiv : ((n : Int) + 3).tdiv 4 = (n + 3) / 4 := Int.tdiv_eq_ediv_of_nonneg (by omega)
    rw [hdiv, Int.bmod_eq_of_le (by omega) (by omega)]
    omega
  · have hneg : ((n : Int) + 3 - 2 ^ 32).tdiv 4 = -((2 ^ 32 - (n : Int) - 3) / 4) := by
      rw [show (n : Int) + 3 - 2 ^ 32 = -(2 ^ 32 - (n : Int) - 3) by ring, Int.neg_tdiv,
        Int.tdiv_eq_ediv_of_nonneg (by omega)]
    rw [hneg, Int.bmod_eq_of_le (by omega) (by omega)]
    omega

/-- With no more bytes than that, they are all copied into words. -/
theorem fromBytes_eq {bytes : List ILUInt8} (hlen : bytes.length + 3 < 2 ^ 31) :
    ∃ words : List ILUInt32, words.length = (bytes.length + 3) / 4 ∧
      BigEndian.value words = BigEndian.value bytes ∧
      ilBigNumFromBytes bytes = normalizeBigNum ⟨false, words.reverse⟩ := by
  by_cases hnil : bytes.length = 0
  · rw [List.eq_nil_of_length_eq_zero hnil]
    exact ⟨[], rfl, rfl, by decide⟩
  · have hextra : bytes.length % 4 < 4 := Nat.mod_lt _ (by decide)
    have hle : bytes.length % 4 ≤ bytes.length := Nat.mod_le _ _
    have hdrop : (bytes.drop (bytes.length % 4)).length = 4 * (bytes.length / 4) := by
      rw [List.length_drop]
      omega
    obtain ⟨hwhole, hvalue⟩ := value_wholeWords _ _ hdrop
    refine ⟨partialWord (bytes.length % 4) bytes ++ wholeWords (bytes.drop (bytes.length % 4)),
      ?_, ?_, ?_⟩
    · rw [List.length_append, hwhole, length_partialWord hextra hle]
      omega
    · calc BigEndian.value (partialWord (bytes.length % 4) bytes ++
            wholeWords (bytes.drop (bytes.length % 4)))
          = BigEndian.value (bytes.take (bytes.length % 4) ++ bytes.drop (bytes.length % 4)) := by
            rw [BigEndian.value_append, BigEndian.value_append, hwhole, hvalue, hdrop,
              value_partialWord hextra hle, Nat.pow_mul, ← Nat.pow_mul 2 8 4]
        _ = BigEndian.value bytes := by rw [List.take_append_drop]
    · unfold ilBigNumFromBytes
      rw [if_neg]
      intro hnone
      have hzero := (noWords_iff (by omega)).1 hnone
      omega

/-- With more, none is. -/
theorem fromBytes_eq_zero {bytes : List ILUInt8} (hlen : bytes.length < 2 ^ 31)
    (hmany : 2 ^ 31 ≤ bytes.length + 3) : ilBigNumFromBytes bytes = ilBigNumFromInt 0 := by
  unfold ilBigNumFromBytes
  exact if_pos ((noWords_iff hlen).2 (Or.inr hmany))

/-! ### To bytes -/

theorem toNat_byteAt (word : ILUInt32) (k : Nat) :
    (byteAt word k).toNat = word.toNat / 2 ^ k % 2 ^ 8 :=
  Bits.toNat_setWidth_ushiftRight word k 8

theorem value_wordBytes (word : ILUInt32) (bytes : List ILUInt8) :
    BigEndian.value (wordBytes word ++ bytes) =
      (2 ^ 8) ^ bytes.length * word.toNat + BigEndian.value bytes := by
  have hlt : word.toNat < 2 ^ 32 := word.isLt
  rw [BigEndian.value_append]
  congr 2
  simp only [wordBytes, BigEndian.value_cons, BigEndian.value_nil, List.length_cons,
    List.length_nil, toNat_byteAt]
  omega

theorem length_flatMap_wordBytes (words : List ILUInt32) :
    (words.flatMap wordBytes).length = 4 * words.length := by
  induction words with
  | nil => rfl
  | cons word words ih =>
    rw [List.flatMap_cons, List.length_append, ih, List.length_cons]
    simp only [wordBytes, List.length_cons, List.length_nil]
    omega

theorem value_flatMap_wordBytes (words : List ILUInt32) :
    BigEndian.value (words.flatMap wordBytes) = BigEndian.value words := by
  induction words with
  | nil => rfl
  | cons word words ih =>
    rw [List.flatMap_cons, value_wordBytes, ih, BigEndian.value_cons, length_flatMap_wordBytes,
      Nat.pow_mul, ← Nat.pow_mul 2 8 4]

/-- Which leading bytes of a word are zero. -/
theorem topMask_iff (top : ILUInt32) : top &&& 0xFF000000 = 0 ↔ top.toNat < 2 ^ 24 := by
  have hlt : top.toNat < 2 ^ 32 := top.isLt
  rw [show (0 : ILUInt32) = 0#32 from rfl, Bits.and_eq_zero_iff top _ 24 8 rfl]
  omega

theorem secondMask_iff {top : ILUInt32} (h : top.toNat < 2 ^ 24) :
    top &&& 0x00FF0000 = 0 ↔ top.toNat < 2 ^ 16 := by
  rw [show (0 : ILUInt32) = 0#32 from rfl, Bits.and_eq_zero_iff top _ 16 8 rfl]
  omega

theorem thirdMask_iff {top : ILUInt32} (h : top.toNat < 2 ^ 16) :
    top &&& 0x0000FF00 = 0 ↔ top.toNat < 2 ^ 8 := by
  rw [show (0 : ILUInt32) = 0#32 from rfl, Bits.and_eq_zero_iff top _ 8 8 rfl]
  omega

/-- A nonzero top word: its first byte is not zero, and the bytes have its value. -/
theorem topBytes_spec {top : ILUInt32} (htop : top ≠ 0) :
    ∃ b bytes, topBytes top = b :: bytes ∧ b ≠ 0 ∧ BigEndian.value (topBytes top) = top.toNat := by
  have hlt : top.toNat < 2 ^ 32 := top.isLt
  have hpos : top.toNat ≠ 0 := fun hzero => htop (BitVec.eq_of_toNat_eq hzero)
  have hbyte : ∀ k, top.toNat / 2 ^ k % 2 ^ 8 ≠ 0 → byteAt top k ≠ 0 := by
    intro k hk hzero
    rw [← toNat_byteAt, hzero] at hk
    exact hk rfl
  unfold topBytes
  split_ifs with h24 h16 h8
  · have h24 := (topMask_iff top).1 h24
    have h16 := (not_congr (secondMask_iff h24)).1 h16
    refine ⟨_, _, rfl, hbyte 16 (by omega), ?_⟩
    simp only [BigEndian.value_cons, BigEndian.value_nil, List.length_cons, List.length_nil,
      toNat_byteAt]
    omega
  · have h24 := (topMask_iff top).1 h24
    have h16 := (secondMask_iff h24).1 (not_not.1 h16)
    have h8 := (not_congr (thirdMask_iff h16)).1 h8
    refine ⟨_, _, rfl, hbyte 8 (by omega), ?_⟩
    simp only [BigEndian.value_cons, BigEndian.value_nil, List.length_cons, List.length_nil,
      toNat_byteAt]
    omega
  · have h24 := (topMask_iff top).1 h24
    have h16 := (secondMask_iff h24).1 (not_not.1 h16)
    have h8 := (thirdMask_iff h16).1 (not_not.1 h8)
    refine ⟨_, _, rfl, hbyte 0 (by omega), ?_⟩
    simp only [BigEndian.value_cons, BigEndian.value_nil, List.length_nil, toNat_byteAt]
    omega
  · have h24 := (not_congr (topMask_iff top)).1 h24
    refine ⟨_, _, rfl, hbyte 24 (by omega), ?_⟩
    have hvalue := value_wordBytes top []
    rw [List.append_nil] at hvalue
    rw [hvalue]
    simp

theorem toBytes_encodes {num : ILBigNum} (h : Radix.Trimmed num.words) :
    BigEndian.Encodes (ilBigNumToBytes num) (Radix.value num.words) := by
  obtain hnil | ⟨lo, top, hwords⟩ := List.eq_nil_or_concat' num.words
  · unfold ilBigNumToBytes
    rw [hnil]
    exact BigEndian.encodes_zero
  · have htop : top ≠ 0 := by
      rw [hwords] at h
      exact (Radix.trimmed_concat lo top).1 h
    obtain ⟨b, bytes, hbytes, hb, hvalue⟩ := topBytes_spec htop
    have hreverse : num.words.reverse = top :: lo.reverse := by
      rw [hwords, List.reverse_append, List.reverse_singleton, List.singleton_append]
    have htotal : BigEndian.value (topBytes top ++ lo.reverse.flatMap wordBytes) =
        Radix.value num.words := by
      rw [BigEndian.value_append, hvalue, value_flatMap_wordBytes, length_flatMap_wordBytes,
        Nat.pow_mul, ← Nat.pow_mul 2 8 4, ← BigEndian.value_cons, ← hreverse]
      unfold BigEndian.value
      rw [List.reverse_reverse]
    unfold ilBigNumToBytes
    rw [hreverse]
    show BigEndian.Encodes (topBytes top ++ _) _
    rw [← htotal, hbytes]
    exact BigEndian.encodes_of_head _ hb

/-- `ILBigNumByteCount` counts what `ILBigNumToBytes` writes. -/
theorem byteCount_eq {num : ILBigNum} (hsize : num.size < 2 ^ 29) :
    (ilBigNumByteCount num).toInt = (ilBigNumToBytes num).length := by
  unfold ilBigNumByteCount ilBigNumToBytes
  have hlength : num.size = num.words.reverse.length := List.length_reverse.symm
  cases hwords : num.words.reverse with
  | nil => rfl
  | cons top words =>
    rw [hwords, List.length_cons] at hlength
    have hbytes : (BitVec.ofNat 32 num.size * 4 : ILInt32).toNat = 4 * words.length + 4 := by
      rw [BitVec.toNat_mul, BitVec.toNat_ofNat, show (4 : ILInt32).toNat = 4 from rfl]
      omega
    have hcount : ∀ k : ILInt32, k.toNat ≤ 3 →
        (BitVec.ofNat 32 num.size * 4 - k).toInt = ((4 - k.toNat + 4 * words.length : Nat) : Int) := by
      intro k hk
      have hnat : (BitVec.ofNat 32 num.size * 4 - k).toNat = 4 - k.toNat + 4 * words.length := by
        rw [BitVec.toNat_sub, hbytes]
        omega
      rw [BitVec.toInt_eq_toNat_of_lt (by omega), hnat]
    simp only [List.length_append, length_flatMap_wordBytes]
    unfold topBytes
    split_ifs
    · exact hcount 1 (by decide)
    · exact hcount 2 (by decide)
    · exact hcount 3 (by decide)
    · have hzero := hcount 0#32 (by decide)
      rw [BitVec.sub_zero] at hzero
      exact hzero

/-! ### What is exact -/

/-- The first magnitude that needs `2 ^ 31` words, more than an `ILInt32` can count. -/
def sizeLimit : Nat := (2 ^ 32) ^ (2 ^ 31 - 1)

/-- A result that is normalized, has a size, and is the integer `n`. -/
def Exact (result : Option ILBigNum) (n : Int) : Prop :=
  ∃ num, result = some num ∧ num.Normalized ∧ num.size < 2 ^ 31 ∧ num.toInt = n

/-- The bytes come back as the shortest encoding of their value, of the length that
`ILBigNumByteCount` gives. -/
def BytesExact (bytes : List ILUInt8) : Prop :=
  BigEndian.Encodes (ilBigNumToBytes (ilBigNumFromBytes bytes)) (BigEndian.value bytes) ∧
    (ilBigNumByteCount (ilBigNumFromBytes bytes)).toInt =
      (ilBigNumToBytes (ilBigNumFromBytes bytes)).length

theorem natAbs_toInt (num : ILBigNum) : num.toInt.natAbs = Radix.value num.words := by
  unfold ILBigNum.toInt
  split <;> simp

theorem lt_sizeLimit {n : Nat} (h : n < (2 ^ 32) ^ 2) : n < sizeLimit :=
  Nat.lt_of_lt_of_le h (Nat.pow_le_pow_right (by decide) (by decide))

theorem exact_iff {result : Option ILBigNum} {num : ILBigNum} {n : Int}
    (h : result = some num ∧ num.Normalized ∧ num.toInt = n) :
    Exact result n ↔ n.natAbs < sizeLimit := by
  obtain ⟨hresult, hnorm, hvalue⟩ := h
  have hsize : num.size < 2 ^ 31 ↔ n.natAbs < sizeLimit := by
    have hlimit := Radix.pow_le_value_iff hnorm.1 (2 ^ 31 - 1)
    rw [← hvalue, natAbs_toInt, sizeLimit, ← not_iff_not, Nat.not_lt, Nat.not_lt, hlimit,
      ILBigNum.size]
    omega
  rw [← hsize]
  constructor
  · intro hexact
    obtain ⟨num', hresult', _, hsize', _⟩ := hexact
    cases hresult.symm.trans hresult'
    exact hsize'
  · intro hlt
    exact ⟨num, hresult, hnorm, hlt, hvalue⟩

theorem bytesExact_iff {bytes : List ILUInt8} (hlen : bytes.length < 2 ^ 31) :
    BytesExact bytes ↔ bytes.length + 3 < 2 ^ 31 ∨ BigEndian.value bytes = 0 := by
  by_cases hfew : bytes.length + 3 < 2 ^ 31
  · obtain ⟨words, hlength, hvalue, heq⟩ := fromBytes_eq hfew
    apply iff_of_true _ (Or.inl hfew)
    have hsize : (ilBigNumFromBytes bytes).size < 2 ^ 29 := by
      rw [heq]
      have htrim := Radix.length_trim_le words.reverse
      rw [List.length_reverse, hlength] at htrim
      exact Nat.lt_of_le_of_lt htrim (by omega)
    refine ⟨?_, byteCount_eq hsize⟩
    have hencodes := toBytes_encodes (normalized_normalizeBigNum ⟨false, words.reverse⟩).1
    rw [value_normalizeBigNum] at hencodes
    rw [heq, ← hvalue]
    exact hencodes
  · have hzero := fromBytes_eq_zero hlen (Nat.le_of_not_lt hfew)
    unfold BytesExact
    rw [hzero]
    constructor
    · intro hexact
      exact Or.inr hexact.1.value.symm
    · intro hcases
      rw [hcases.resolve_left hfew]
      exact ⟨BigEndian.encodes_zero, rfl⟩

/-- Signed sums and differences are exact whenever their size can be recorded, and bytes
come back whenever their number can be rounded up to words. -/
theorem bigNum_exact_iff (fuel : Nat) {numx numy : ILBigNum} (hx : numx.Normalized)
    (hy : numy.Normalized) {bytes : List ILUInt8} (hlen : bytes.length < 2 ^ 31) :
    (Exact (ilBigNumAdd fuel numx numy none) (numx.toInt + numy.toInt) ∧
        Exact (ilBigNumSub fuel numx numy none) (numx.toInt - numy.toInt) ∧ BytesExact bytes) ↔
      (numx.toInt + numy.toInt).natAbs < sizeLimit ∧
        (numx.toInt - numy.toInt).natAbs < sizeLimit ∧
        (bytes.length + 3 < 2 ^ 31 ∨ BigEndian.value bytes = 0) := by
  obtain ⟨sum, hsum⟩ := ilBigNumAdd_none fuel numx numy hx hy
  obtain ⟨diff, hdiff⟩ := ilBigNumSub_none fuel numx numy hx hy
  rw [exact_iff hsum, exact_iff hdiff, bytesExact_iff hlen]

theorem bigNum_exact_example :
    Exact (ilBigNumAdd 0 ⟨true, [0, 1]⟩ ⟨false, [5]⟩ none) (-4294967291) ∧
      Exact (ilBigNumSub 0 ⟨true, [0, 1]⟩ ⟨false, [5]⟩ none) (-4294967301) ∧
      BytesExact [0, 0, 1, 2, 3, 4, 5] :=
  (bigNum_exact_iff 0 (show (⟨true, [0, 1]⟩ : ILBigNum).Normalized by decide)
    (show (⟨false, [5]⟩ : ILBigNum).Normalized by decide) (by decide)).2
    ⟨lt_sizeLimit (by decide), lt_sizeLimit (by decide), Or.inl (by decide)⟩

theorem not_bytesExact {n : Nat} (hn : n < 2 ^ 31) (hmany : 2 ^ 31 ≤ n + 3) :
    ¬ BytesExact (List.replicate n 1) := by
  intro hexact
  have hlength : (List.replicate n (1 : ILUInt8)).length = n := List.length_replicate
  have hcases := (bytesExact_iff (by rw [hlength]; exact hn)).1 hexact
  rw [hlength] at hcases
  have hzero := hcases.resolve_left (by omega)
  cases n with
  | zero => omega
  | succ n =>
    have hpos : 0 < ((2 : Nat) ^ 8) ^ n := Nat.pow_pos (by decide)
    rw [List.replicate_succ, BigEndian.value_cons, List.length_replicate,
      show (1 : ILUInt8).toNat = 1 from rfl, Nat.mul_one] at hzero
    omega

/-- Three bytes below `2 ^ 31` of them, the number of words wraps and the value is lost. -/
theorem bytes_not_exact : ¬ BytesExact (List.replicate (2 ^ 31 - 3) 1) :=
  not_bytesExact (by decide) (by decide)

end Pnet.Support
