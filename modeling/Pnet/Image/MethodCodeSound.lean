import Pnet.Image.MethodCode
import Pnet.Lib.ByteWindow
import Pnet.Lib.Loop

/-! The exception clauses behind the code of a method are those of the sections in front of
the first one that is not whole. Nothing outside the bytes behind the code is read. -/
namespace Pnet.Image.MethodCode
open Pnet.Lib

/-- A field of a clause. -/
def field (entry : List ILUInt8) (offset size : Nat) : ILUInt32 :=
  BitVec.ofNat 32 (littleEndian entry offset size)

def tinyClause (entry : List ILUInt8) : ILException :=
  ⟨field entry 0 2, field entry 2 2, field entry 4 1, field entry 5 2, field entry 7 1,
    field entry 8 4⟩

def fatClause (entry : List ILUInt8) : ILException :=
  ⟨field entry 0 4, field entry 4 4, field entry 8 4, field entry 12 4, field entry 16 4,
    field entry 20 4⟩

/-- The entries of this size that the bytes hold. -/
def entries (size : Nat) (data : List ILUInt8) : List (List ILUInt8) :=
  (List.range (data.length / size)).map fun i => (data.drop (i * size)).take size

/-- The size of a section that starts with these bytes. -/
def sectionSize (kind b1 b2 b3 : ILUInt8) : Nat :=
  if kind &&& 0x40 = 0 then b1.toNat else Radix.value [b1, b2, b3]

/-- A section whose header tells its size. -/
structure MethodSection where
  kind : ILUInt8
  b1 : ILUInt8
  b2 : ILUInt8
  b3 : ILUInt8
  data : List ILUInt8
  size_eq : sectionSize kind b1 b2 b3 = data.length + 4

namespace MethodSection

variable (sec : MethodSection)

def bytes : List ILUInt8 := sec.kind :: sec.b1 :: sec.b2 :: sec.b3 :: sec.data

/-- The clauses of an exception section; other sections have none. -/
def clauses : List ILException :=
  if sec.kind &&& 0x3F = 0x01 then
    if sec.kind &&& 0x40 = 0 then (entries 12 sec.data).map tinyClause
    else (entries 24 sec.data).map fatClause
  else []

end MethodSection

/-- The bytes from an address to the next boundary. -/
def padding (rva : Nat) : Nat := (4 - rva % 4) % 4

/-- The clauses of the sections that are there before one is missing or not whole. -/
inductive LeadingClauses : Bool → Nat → List ILUInt8 → List ILException → Prop where
  | last (rva : Nat) (area : List ILUInt8) : LeadingClauses false rva area []
  | truncated (rva : Nat) (area : List ILUInt8)
      (h : ∀ pad (sec : MethodSection) rest, pad.length = padding rva →
        area ≠ pad ++ (sec.bytes ++ rest)) : LeadingClauses true rva area []
  | whole (rva : Nat) (pad : List ILUInt8) (sec : MethodSection) (rest : List ILUInt8)
      (clauses : List ILException) (hpad : pad.length = padding rva)
      (h : LeadingClauses (sec.kind &&& 0x80 ≠ 0) (rva + pad.length + sec.bytes.length) rest
        clauses) : LeadingClauses true rva (pad ++ (sec.bytes ++ rest)) (sec.clauses ++ clauses)

/-! ### Reading from a window -/

variable {m : Memory} {addr k : Nat} {bytes : List ILUInt8}

theorem readByte_window (h : Window m addr bytes) (hk : k < bytes.length) :
    readByte m (addr + k) = .ok (bytes.getD k 0) := by
  unfold readByte
  rw [h k hk, List.getElem?_eq_getElem hk]
  simp [hk]

theorem ilReadUInt16_window (h : Window m addr bytes) (hk : k + 2 ≤ bytes.length) :
    ilReadUInt16 m (addr + k) = .ok (field bytes k 2) := by
  have hdrop := h.drop k (by omega)
  have hlen : (bytes.drop k).length = bytes.length - k := List.length_drop
  unfold field littleEndian
  generalize bytes.drop k = tail at hdrop hlen
  match tail, hdrop, hlen with
  | [], _, hlen => simp at hlen; omega
  | [_], _, hlen => simp at hlen; omega
  | b0 :: b1 :: tail, hdrop, _ =>
    rw [Window.cons, Window.cons] at hdrop
    obtain ⟨h0, h1, _⟩ := hdrop
    unfold ilReadUInt16 readByte
    rw [h0, h1]
    refine congrArg Except.ok (BitVec.eq_of_toNat_eq ?_)
    rw [Bits.toNat_join2]
    simp
    omega

theorem ilReadUInt32_window (h : Window m addr bytes) (hk : k + 4 ≤ bytes.length) :
    ilReadUInt32 m (addr + k) = .ok (field bytes k 4) := by
  have hdrop := h.drop k (by omega)
  have hlen : (bytes.drop k).length = bytes.length - k := List.length_drop
  unfold field littleEndian
  generalize bytes.drop k = tail at hdrop hlen
  match tail, hdrop, hlen with
  | [], _, hlen => simp at hlen; omega
  | [_], _, hlen => simp at hlen; omega
  | [_, _], _, hlen => simp at hlen; omega
  | [_, _, _], _, hlen => simp at hlen; omega
  | b0 :: b1 :: b2 :: b3 :: tail, hdrop, _ =>
    rw [Window.cons, Window.cons, Window.cons, Window.cons] at hdrop
    obtain ⟨h0, h1, h2, h3, _⟩ := hdrop
    unfold ilReadUInt32 readByte
    rw [h0, h1, h2, h3]
    refine congrArg Except.ok (BitVec.eq_of_toNat_eq ?_)
    rw [Bits.toNat_join4]
    simp
    omega

theorem readByte_field (h : Window m addr bytes) (hk : k + 1 ≤ bytes.length) :
    ∃ b, readByte m (addr + k) = .ok b ∧ b.setWidth 32 = field bytes k 1 := by
  refine ⟨_, readByte_window h hk, BitVec.eq_of_toNat_eq ?_⟩
  have hget : bytes.getD k 0 = bytes[k] := by simp [List.getElem?_eq_getElem hk]
  rw [field, littleEndian, List.drop_eq_getElem_cons hk, List.take_succ_cons, List.take_zero,
    Radix.value_cons, Radix.value_nil, hget, BitVec.toNat_setWidth, BitVec.toNat_ofNat,
    Nat.mul_zero, Nat.add_zero]

theorem readTinyClause_window (h : Window m addr bytes) (hlen : bytes.length = 12) :
    readTinyClause m addr = .ok (tinyClause bytes) := by
  obtain ⟨tryLength, htry, htryField⟩ := readByte_field h (k := 4) (by omega)
  obtain ⟨handlerLength, hhandler, hhandlerField⟩ := readByte_field h (k := 7) (by omega)
  have hflags : ilReadUInt16 m addr = .ok (field bytes 0 2) :=
    ilReadUInt16_window h (k := 0) (by omega)
  unfold readTinyClause tinyClause
  rw [hflags, ok_bind, ilReadUInt16_window h (by omega), ok_bind, htry, ok_bind,
    ilReadUInt16_window h (by omega), ok_bind, hhandler, ok_bind,
    ilReadUInt32_window h (by omega), ok_bind, htryField, hhandlerField]
  rfl

theorem readFatClause_window (h : Window m addr bytes) (hlen : bytes.length = 24) :
    readFatClause m addr = .ok (fatClause bytes) := by
  have hflags : ilReadUInt32 m addr = .ok (field bytes 0 4) :=
    ilReadUInt32_window h (k := 0) (by omega)
  unfold readFatClause fatClause
  rw [hflags, ok_bind, ilReadUInt32_window h (by omega), ok_bind,
    ilReadUInt32_window h (by omega), ok_bind, ilReadUInt32_window h (by omega), ok_bind,
    ilReadUInt32_window h (by omega), ok_bind, ilReadUInt32_window h (by omega), ok_bind]
  rfl

/-! ### The clauses of a section -/

theorem readClauses_spec {readClause : Nat → Except MethodStop ILException}
    (clause : Nat → ILException) {size sectSize : ILUInt64} (hsize : 0 < size.toNat)
    (hroom : sectSize.toNat + size.toNat < 2 ^ 64)
    (hread : ∀ i < sectSize.toNat / size.toNat,
      readClause (addr + i * size.toNat) = .ok (clause i)) (n i : Nat)
    (hn : i + n = sectSize.toNat / size.toNat) {fuel : Nat} (hfuel : n < fuel) {posn : ILUInt64}
    (hposn : posn.toNat = i * size.toNat) :
    readClauses readClause size addr sectSize fuel posn =
      .ok ((List.range' i n).map clause) := by
  have hdiv := Nat.div_add_mod sectSize.toNat size.toNat
  have hmod := Nat.mod_lt sectSize.toNat hsize
  rw [← hn] at hdiv
  have hsect := sectSize.isLt
  induction n generalizing i fuel posn with
  | zero =>
    obtain ⟨fuel, rfl⟩ := Nat.exists_eq_succ_of_ne_zero hfuel.ne'
    rw [Nat.add_zero, Nat.mul_comm] at hdiv
    have hend : ¬ posn + size ≤ sectSize := by
      rw [BitVec.le_def, BitVec.toNat_add, Nat.mod_eq_of_lt (by omega)]
      omega
    unfold readClauses
    rw [if_neg hend]
    rfl
  | succ n ih =>
    obtain ⟨fuel, rfl⟩ := Nat.exists_eq_succ_of_ne_zero (Nat.ne_of_gt (Nat.zero_lt_of_lt hfuel))
    have hnext : i * size.toNat + size.toNat + size.toNat * n ≤ sectSize.toNat := by
      rw [← hdiv, Nat.mul_add, Nat.mul_succ, Nat.mul_comm i]
      omega
    have hsum : (posn + size).toNat = (i + 1) * size.toNat := by
      rw [BitVec.toNat_add, hposn, Nat.succ_mul, Nat.mod_eq_of_lt]
      omega
    have hmore : posn + size ≤ sectSize := by
      rw [BitVec.le_def, hsum, Nat.succ_mul]
      omega
    have hn' : i + 1 + n = sectSize.toNat / size.toNat := by omega
    unfold readClauses
    rw [if_pos hmore, hposn, hread i (by omega), ok_bind,
      ih (i + 1) hn' (Nat.lt_of_succ_lt_succ hfuel) hsum (by rw [hn', ← hn]; exact hdiv)]
    rfl

theorem readClauses_entries {readClause : Nat → Except MethodStop ILException}
    {decode : List ILUInt8 → ILException} {size sectSize : ILUInt64} (hsize : 0 < size.toNat)
    {data : List ILUInt8} (hsect : sectSize.toNat = data.length)
    (hroom : data.length + size.toNat < 2 ^ 64)
    (hwindow : Window m addr data)
    (hread : ∀ a entry, Window m a entry → entry.length = size.toNat →
      readClause a = .ok (decode entry)) :
    readClauses readClause size addr sectSize (sectSize.toNat + 1) 0 =
      .ok ((entries size.toNat data).map decode) := by
  have hentry : ∀ i < sectSize.toNat / size.toNat, readClause (addr + i * size.toNat) =
      .ok (decode ((data.drop (i * size.toNat)).take size.toNat)) := by
    intro i hi
    have hle : (i + 1) * size.toNat ≤ data.length := by
      rw [← hsect]
      exact (Nat.mul_le_mul_right _ hi).trans (Nat.div_mul_le_self _ _)
    rw [Nat.succ_mul] at hle
    refine hread _ _ (hwindow.slice hle) ?_
    rw [List.length_take, List.length_drop]
    omega
  have hfuel := Nat.lt_succ_of_le (Nat.div_le_self sectSize.toNat size.toNat)
  have hzero : (0 : ILUInt64).toNat = 0 * size.toNat := (Nat.zero_mul _).symm
  rw [readClauses_spec (fun i => decode ((data.drop (i * size.toNat)).take size.toNat)) hsize
    (by rw [hsect]; exact hroom) hentry _ 0 (Nat.zero_add _) hfuel hzero, entries, List.map_map,
    hsect, List.range_eq_range']
  rfl

theorem readSection_spec {sec : MethodSection} {sectSize : ILUInt64}
    (hsect : sectSize.toNat = sec.data.length) (hroom : sec.data.length < 2 ^ 24)
    (hwindow : Window m addr sec.data) :
    readSection m sec.kind addr sectSize = .ok sec.clauses := by
  unfold readSection MethodSection.clauses
  split_ifs with hkind htiny
  · exact readClauses_entries (by decide : 0 < (12 : ILUInt64).toNat) hsect (by simp; omega) hwindow
      fun a entry h hlen => readTinyClause_window h hlen
  · exact readClauses_entries (by decide : 0 < (24 : ILUInt64).toNat) hsect (by simp; omega) hwindow
      fun a entry h hlen => readFatClause_window h hlen
  · rfl

theorem sectionSize_lt (kind b1 b2 b3 : ILUInt8) : sectionSize kind b1 b2 b3 < 2 ^ 24 := by
  unfold sectionSize
  split_ifs
  · have := b1.isLt
    omega
  · have hlt := Radix.value_lt [b1, b2, b3]
    rw [List.length_cons, List.length_cons, List.length_singleton, ← pow_mul] at hlt
    exact hlt

theorem toNat_join3 (a b c : BitVec 8) :
    ((a.setWidth 64 <<< 16) ||| (b.setWidth 64 <<< 8) ||| c.setWidth 64).toNat =
      a.toNat * 2 ^ 16 + b.toNat * 2 ^ 8 + c.toNat := by
  have ha : a.toNat < 2 ^ 8 := a.isLt
  have hb : b.toNat < 2 ^ 8 := b.isLt
  have hc : c.toNat < 2 ^ 8 := c.isLt
  have shifted (x : BitVec 8) (k : Nat) (hx : x.toNat * 2 ^ k < 2 ^ 64) :
      (x.setWidth 64 <<< k).toNat = x.toNat * 2 ^ k := by
    have hx64 : (x.setWidth 64).toNat = x.toNat := by simp; omega
    rw [Bits.toNat_shiftLeft_of_lt _ _ (by rwa [hx64]), hx64]
  have ea := shifted a 16 (by omega)
  have eb := shifted b 8 (by omega)
  have ec : (c.setWidth 64).toNat = c.toNat := by simp; omega
  have eab := Bits.toNat_or_low _ _ 16 (by rw [ea]; omega)
    (show (b.setWidth 64 <<< 8).toNat < 2 ^ 16 by omega)
  rw [Bits.toNat_or_low _ _ 8 (by rw [eab, ea, eb]; omega) (by omega), eab, ea, eb, ec]

theorem readSectSize_window {kind b1 b2 b3 : ILUInt8} {rest : List ILUInt8}
    (h : Window m addr (kind :: b1 :: b2 :: b3 :: rest)) :
    ∃ sectSize, readSectSize m addr kind = .ok sectSize ∧
      sectSize.toNat = sectionSize kind b1 b2 b3 := by
  rw [Window.cons, Window.cons, Window.cons, Window.cons] at h
  obtain ⟨_, h1, h2, h3, _⟩ := h
  unfold readSectSize sectionSize readByte
  split_ifs with htiny
  · refine ⟨_, by rw [h1]; rfl, ?_⟩
    simp
    omega
  · refine ⟨_, by rw [h1, h2, h3]; rfl, ?_⟩
    rw [toNat_join3]
    simp
    omega

/-! ### The sections behind the code -/

/-- The bytes at a boundary are those of a section that is whole. -/
theorem section_of_whole {kind b1 b2 b3 : ILUInt8} {rest : List ILUInt8}
    (hsize : 4 ≤ sectionSize kind b1 b2 b3) (hwhole : sectionSize kind b1 b2 b3 ≤ rest.length + 4) :
    ∃ (sec : MethodSection) (behind : List ILUInt8), sec.kind = kind ∧
      sec.data.length + 4 = sectionSize kind b1 b2 b3 ∧
      kind :: b1 :: b2 :: b3 :: rest = sec.bytes ++ behind := by
  have hlen : (rest.take (sectionSize kind b1 b2 b3 - 4)).length =
      sectionSize kind b1 b2 b3 - 4 := by
    rw [List.length_take]
    omega
  refine ⟨⟨kind, b1, b2, b3, rest.take (sectionSize kind b1 b2 b3 - 4), by omega⟩,
    rest.drop (sectionSize kind b1 b2 b3 - 4), rfl, by simp only; omega, ?_⟩
  simp [MethodSection.bytes]

theorem MethodSection.length_bytes (sec : MethodSection) :
    sec.bytes.length = sec.data.length + 4 := rfl

theorem MethodSection.append_inj {sec sec' : MethodSection} {rest rest' : List ILUInt8}
    (h : sec.bytes ++ rest = sec'.bytes ++ rest') : sec = sec' ∧ rest = rest' := by
  obtain ⟨kind, b1, b2, b3, data, hsize⟩ := sec
  obtain ⟨kind', b1', b2', b3', data', hsize'⟩ := sec'
  simp only [MethodSection.bytes, List.cons_append, List.cons.injEq] at h
  obtain ⟨rfl, rfl, rfl, rfl, hdata⟩ := h
  obtain ⟨rfl, rfl⟩ := List.append_inj hdata (by omega)
  exact ⟨rfl, rfl⟩

theorem padding_toNat {rva : ILUInt64} {r : Nat} (hrva : rva.toNat % 4 = r % 4) :
    (if rva &&& 3 ≠ 0 then 4 - (rva &&& 3) else 0 : ILUInt64).toNat = padding r := by
  have hand : (rva &&& 3).toNat = rva.toNat % 4 := Bits.toNat_and_mask rva 3 2 rfl
  have hzero : rva &&& 3 = 0 ↔ rva.toNat % 4 = 0 := by
    rw [← hand]
    exact ⟨fun h => by rw [h]; rfl, fun h => BitVec.eq_of_toNat_eq h⟩
  have hlt := Nat.mod_lt r (show 0 < 4 by decide)
  unfold padding
  split_ifs with hne
  · have hpos : r % 4 ≠ 0 := fun h => hne (hzero.2 (hrva.trans h))
    rw [BitVec.toNat_sub, hand, hrva]
    simp
    omega
  · have : r % 4 = 0 := hrva.symm.trans (hzero.1 (not_not.1 hne))
    rw [this]
    rfl

theorem truncated_of_length {r : Nat} {area : List ILUInt8} (h : area.length < padding r + 4) :
    LeadingClauses true r area [] := by
  refine .truncated r area fun pad sec rest hpad heq => ?_
  have hlen := congrArg List.length heq
  rw [List.length_append, List.length_append, sec.length_bytes, hpad] at hlen
  omega

theorem truncated_of_size {r : Nat} {pad rest : List ILUInt8} {kind b1 b2 b3 : ILUInt8}
    (hpad : pad.length = padding r)
    (h : sectionSize kind b1 b2 b3 < 4 ∨ rest.length + 4 < sectionSize kind b1 b2 b3) :
    LeadingClauses true r (pad ++ (kind :: b1 :: b2 :: b3 :: rest)) [] := by
  refine .truncated r _ fun pad' sec rest' hpad' heq => ?_
  obtain ⟨_, hbytes⟩ := List.append_inj heq (hpad.trans hpad'.symm)
  simp only [MethodSection.bytes, List.cons_append, List.cons.injEq] at hbytes
  obtain ⟨rfl, rfl, rfl, rfl, rfl⟩ := hbytes
  have hsize := sec.size_eq
  rw [List.length_append] at h
  omega

theorem readSections_spec (fuel : Nat) {more : Bool} {area : List ILUInt8} {r : Nat}
    {rva len : ILUInt64} (h : Window m addr area) (hlen : len.toNat = area.length)
    (hfuel : area.length < fuel) (hrva : rva.toNat % 4 = r % 4) :
    ∃ clauses, LeadingClauses more r area clauses ∧
      readSections m fuel more addr rva len = .ok clauses := by
  induction fuel generalizing more area r rva len addr with
  | zero => exact absurd hfuel (Nat.not_lt_zero _)
  | succ fuel ih =>
    unfold readSections
    cases more with
    | false => exact ⟨[], .last r area, rfl⟩
    | true =>
      rw [if_neg (by simp)]
      have hadjust := padding_toNat hrva
      generalize (if rva &&& 3 ≠ 0 then 4 - (rva &&& 3) else 0 : ILUInt64) = adjust at hadjust
      dsimp only
      by_cases hover : adjust > len
      · rw [if_pos hover]
        refine ⟨[], truncated_of_length ?_, rfl⟩
        rw [gt_iff_lt, BitVec.lt_def] at hover
        omega
      rw [if_neg hover]
      rw [gt_iff_lt, BitVec.lt_def, not_lt, hadjust] at hover
      have hlen' : (len - adjust).toNat = area.length - padding r := by
        rw [BitVec.toNat_sub_of_le (by rw [BitVec.le_def]; omega)]
        omega
      by_cases hshort : len - adjust < 4
      · rw [if_pos hshort]
        refine ⟨[], truncated_of_length ?_, rfl⟩
        rw [BitVec.lt_def, hlen'] at hshort
        simp at hshort
        omega
      rw [if_neg hshort]
      rw [BitVec.lt_def, not_lt, hlen'] at hshort
      have hpadLen : (area.take (padding r)).length = padding r := by
        rw [List.length_take]
        omega
      have hdrop := h.drop (padding r) (by omega)
      have hdropLen : (area.drop (padding r)).length = area.length - padding r := List.length_drop
      rw [← List.take_append_drop (padding r) area, hadjust]
      generalize area.take (padding r) = pad at hpadLen
      generalize area.drop (padding r) = behind at hdrop hdropLen
      match behind, hdrop, hdropLen with
      | [], _, hdropLen => simp at hshort hdropLen; omega
      | [_], _, hdropLen => simp at hshort hdropLen; omega
      | [_, _], _, hdropLen => simp at hshort hdropLen; omega
      | [_, _, _], _, hdropLen => simp at hshort hdropLen; omega
      | kind :: b1 :: b2 :: b3 :: rest, hdrop, hdropLen =>
        simp only [List.length_cons] at hdropLen
        obtain ⟨sectSize, hsect, hsectSize⟩ := readSectSize_window hdrop
        have hkind : readByte m (addr + padding r) = .ok kind :=
          readByte_window hdrop (k := 0) (Nat.zero_lt_succ _)
        rw [hkind, ok_bind, hsect, ok_bind]
        by_cases hbad : sectSize < 4 ∨ len - adjust < sectSize
        · rw [if_pos hbad]
          refine ⟨[], truncated_of_size hpadLen (hbad.imp (fun hlt => ?_) fun hlt => ?_), rfl⟩
          · rw [← hsectSize]
            exact hlt
          · rw [BitVec.lt_def, hlen'] at hlt
            omega
        rw [if_neg hbad]
        rw [not_or, BitVec.lt_def, BitVec.lt_def, not_lt, not_lt, hlen'] at hbad
        have hfour : 4 ≤ sectionSize kind b1 b2 b3 := by
          rw [← hsectSize]
          exact hbad.1
        obtain ⟨sec, behind, rfl, hdata, hbytes⟩ :=
          section_of_whole hfour (show _ ≤ rest.length + 4 by omega)
        have hbytesLen := congrArg List.length hbytes
        rw [List.length_append, sec.length_bytes] at hbytesLen
        simp only [List.length_cons] at hbytesLen
        rw [hbytes] at hdrop
        rw [hbytes]
        have hwindow := Window.append.1 hdrop
        have hsectData : (sectSize - 4).toNat = sec.data.length := by
          rw [BitVec.toNat_sub_of_le (by rw [BitVec.le_def]; exact hbad.1), hsectSize, ← hdata]
          rfl
        have hdataWindow : Window m (addr + padding r + 4) sec.data := by
          have hbytesWindow := hwindow.1
          exact hbytesWindow.drop 4 (by rw [sec.length_bytes]; omega)
        have hsmall := sectionSize_lt sec.kind b1 b2 b3
        have hbehind : Window m (addr + padding r + 4 + (sectSize - 4).toNat) behind := by
          have hrest := hwindow.2
          rw [sec.length_bytes] at hrest
          rw [hsectData, Nat.add_assoc _ 4, Nat.add_comm 4]
          exact hrest
        have hfourLen : (len - adjust - 4).toNat = behind.length + sec.data.length := by
          rw [BitVec.toNat_sub_of_le (by rw [BitVec.le_def, hlen']; exact hshort), hlen']
          simp
          omega
        have hlenNext : (len - adjust - 4 - (sectSize - 4)).toNat = behind.length := by
          rw [BitVec.toNat_sub_of_le (by rw [BitVec.le_def, hfourLen, hsectData]; omega), hfourLen,
            hsectData, Nat.add_sub_cancel]
        have hrvaNext : (rva + adjust + 4 + (sectSize - 4)).toNat % 4 =
            (r + pad.length + sec.bytes.length) % 4 := by
          rw [hpadLen, sec.length_bytes]
          simp only [BitVec.toNat_add, hadjust, hsectData]
          simp
          omega
        obtain ⟨clauses, hclauses, hrun⟩ : ∃ clauses,
            LeadingClauses (sec.kind &&& 0x80 ≠ 0) (r + pad.length + sec.bytes.length) behind
              clauses ∧ readSections m fuel (sec.kind &&& 0x80 ≠ 0) _ _ _ = .ok clauses :=
          ih hbehind hlenNext (by omega) hrvaNext
        refine ⟨sec.clauses ++ clauses, .whole r pad sec behind clauses hpadLen hclauses, ?_⟩
        rw [readSection_spec hsectData (by omega) hdataWindow, ok_bind, hrun]
        rfl

/-- The sections say what the clauses are. -/
theorem LeadingClauses.unique {more : Bool} {r : Nat} {area : List ILUInt8}
    {clauses clauses' : List ILException} (h : LeadingClauses more r area clauses)
    (h' : LeadingClauses more r area clauses') : clauses = clauses' := by
  induction h generalizing clauses' with
  | last r area =>
    cases h'
    rfl
  | truncated r area hno =>
    generalize hmore : true = more at h'
    cases h' with
    | last => rfl
    | truncated => rfl
    | whole _ pad sec rest clauses hpad _ => exact absurd rfl (hno pad sec rest hpad)
  | whole r pad sec rest clauses hpad _ ih =>
    generalize harea : pad ++ (sec.bytes ++ rest) = area at h'
    generalize hmore : true = more at h'
    cases h' with
    | last => cases hmore
    | truncated _ _ hno => exact absurd harea.symm (hno pad sec rest hpad)
    | whole _ pad' sec' rest' clauses' hpad' h' =>
      obtain ⟨rfl, hbytes⟩ := List.append_inj harea (hpad.trans hpad'.symm)
      obtain ⟨rfl, rfl⟩ := MethodSection.append_inj hbytes
      rw [ih h']

theorem ilMethodGetExceptions_spec {σ : Type} {method : ILMethod} {code : ILMethodCode σ}
    {area : List ILUInt8} (h : Window m (code.code + code.codeLen.toNat) area)
    (hlen : area.length = code.remaining.toNat) :
    ∃ clauses, ilMethodGetExceptions m method code = .ok clauses ∧
      LeadingClauses code.moreSections (method.rva + code.headerSize + code.codeLen).toNat area
        clauses := by
  have hremaining := code.remaining.isLt
  have hrva := (method.rva + code.headerSize + code.codeLen).isLt
  obtain ⟨clauses, hclauses, hread⟩ : ∃ clauses,
      LeadingClauses code.moreSections (method.rva + code.headerSize + code.codeLen).toNat area
        clauses ∧ ilMethodGetExceptions m method code = .ok clauses := by
    refine readSections_spec _ h ?_ (by omega) ?_
    · rw [BitVec.toNat_setWidth, Nat.mod_eq_of_lt (by omega), hlen]
    · rw [BitVec.toNat_setWidth]
      omega
  exact ⟨clauses, hread, hclauses⟩

end Pnet.Image.MethodCode

/-! ### The length of a header

The header of a method says how long it is, and only twelve bytes of it are checked to be
there. A longer header than the section turns what remains of it into a huge number. -/
namespace Pnet.Image.MethodCode
open Pnet.Lib

/-- What `ILImageMapRVA` yields: the memory holds all bytes up to the end of the section,
which has a size of 32 bits. -/
structure MappedSection where
  bytes : List ILUInt8
  memory : Memory
  len : ILUInt64
  window : Window memory 0 bytes
  len_eq : len.toNat = bytes.length
  fits : bytes.length < 2 ^ 32

/-- The section is as long as a fat header says that it is itself. -/
def HeaderFits (bytes : List ILUInt8) : Prop :=
  ∀ first second : ILUInt8, bytes[0]? = some first → bytes[1]? = some second → first &&& 0x07 = 0x03 →
    4 * (second >>> 4).toNat ≤ bytes.length

/-- Header, code and what remains are the section, and the clauses are those of the leading
sections of what remains, whatever the memory has elsewhere. -/
structure BodySound {σ : Type} (method : ILMethod) (bytes : List ILUInt8)
    (code : ILMethodCode σ) : Prop where
  size : code.headerSize.toNat + code.codeLen.toNat + code.remaining.toNat = bytes.length
  start : code.code = code.headerSize.toNat
  exceptions : ∀ m, Window m (code.code + code.codeLen.toNat)
      (bytes.drop (code.headerSize.toNat + code.codeLen.toNat)) →
    ∃ clauses, ilMethodGetExceptions m method code = .ok clauses ∧
      LeadingClauses code.moreSections (method.rva + code.headerSize + code.codeLen).toNat
        (bytes.drop (code.headerSize.toNat + code.codeLen.toNat)) clauses

variable {σ : Type} {fromToken : ILUInt32 → Option σ} {isLocals : σ → Bool}

theorem and_seven {b : ILUInt8} (h : b &&& 0x07 = 0x03) : b &&& 0x03 = 0x03 := by
  have hmask : (0x03 : ILUInt8) = 0x07 &&& 0x03 := by decide
  rw [hmask, ← BitVec.and_assoc, h]
  decide

theorem toNat_headerSize (b : ILUInt8) :
    (((b >>> 4) &&& 0x0F).setWidth 32 * 4 : ILUInt32).toNat = 4 * (b >>> 4).toNat := by
  have hb := b.isLt
  have hshift : (b >>> 4).toNat = b.toNat / 16 := by
    rw [BitVec.toNat_ushiftRight, Nat.shiftRight_eq_div_pow]
  rw [BitVec.toNat_mul, BitVec.toNat_setWidth, Bits.toNat_and_mask _ _ 4 rfl, hshift]
  simp
  omega

theorem getHeader_spec (fromToken : ILUInt32 → Option σ) (isLocals : σ → Bool) (sec : MappedSection) (hpos : 0 < sec.bytes.length) :
    ∃ result, getHeader fromToken isLocals sec.memory sec.len = .ok result ∧
      ∀ code, result = some code →
        (code.headerSize.toNat ≤ sec.bytes.length ↔ HeaderFits sec.bytes) := by
  have hfirst : readByte sec.memory 0 = .ok (sec.bytes.getD 0 0) :=
    readByte_window sec.window (k := 0) hpos
  have hget : sec.bytes[0]? = some (sec.bytes.getD 0 0) := by
    simp [List.getElem?_eq_getElem hpos]
  unfold getHeader
  rw [hfirst, ok_bind]
  generalize sec.bytes.getD 0 0 = first at hget
  by_cases htiny : first &&& 0x03 = 0x02
  · rw [if_pos htiny]
    refine ⟨_, rfl, fun code hcode => ?_⟩
    obtain rfl := Option.some.inj hcode
    refine ⟨fun _ first' second h0 _ hfat => ?_, fun _ => hpos⟩
    obtain rfl : first = first' := Option.some.inj (hget.symm.trans h0)
    rw [and_seven hfat] at htiny
    exact absurd htiny (by decide)
  rw [if_neg htiny]
  by_cases hfat : first &&& 0x07 = 0x03
  · rw [if_pos hfat]
    by_cases hshort : sec.len < 12
    · rw [if_pos hshort]
      exact ⟨none, rfl, fun code hcode => by cases hcode⟩
    rw [if_neg hshort]
    have hlen : 12 ≤ sec.bytes.length := by
      rw [← sec.len_eq]
      exact not_lt.1 hshort
    have hmaxStack : ilReadUInt16 sec.memory 2 = .ok (field sec.bytes 2 2) := by
      rw [← ilReadUInt16_window sec.window (by omega), Nat.zero_add]
    have hcodeLen : ilReadUInt32 sec.memory 4 = .ok (field sec.bytes 4 4) := by
      rw [← ilReadUInt32_window sec.window (by omega), Nat.zero_add]
    have hlocalVars : ilReadUInt32 sec.memory 8 = .ok (field sec.bytes 8 4) := by
      rw [← ilReadUInt32_window sec.window (by omega), Nat.zero_add]
    have hsecond : readByte sec.memory 1 = .ok (sec.bytes.getD 1 0) := by
      rw [← readByte_window sec.window (by omega), Nat.zero_add]
    have hgetSecond : sec.bytes[1]? = some (sec.bytes.getD 1 0) := by
      simp [List.getElem?_eq_getElem (show 1 < sec.bytes.length by omega)]
    rw [hmaxStack, ok_bind, hcodeLen, ok_bind, hlocalVars, ok_bind]
    cases getLocalVarSig fromToken isLocals (field sec.bytes 8 4) with
    | none => exact ⟨none, rfl, fun code hcode => by cases hcode⟩
    | some localVarSig =>
      dsimp only
      rw [hsecond, ok_bind]
      generalize sec.bytes.getD 1 0 = second at hgetSecond
      by_cases hsmall : ((second >>> 4) &&& 0x0F).setWidth 32 * 4 < (12 : ILUInt32)
      · rw [if_pos hsmall]
        exact ⟨none, rfl, fun code hcode => by cases hcode⟩
      · rw [if_neg hsmall]
        refine ⟨_, rfl, fun code hcode => ?_⟩
        obtain rfl := Option.some.inj hcode
        have hsize := toNat_headerSize second
        refine ⟨fun hfits first' second' h0 h1 _ => ?_, fun hfits => ?_⟩
        · obtain rfl : second = second' := Option.some.inj (hgetSecond.symm.trans h1)
          exact hsize.symm.trans_le hfits
        · exact hsize.trans_le (hfits first second hget hgetSecond hfat)
  · rw [if_neg hfat]
    exact ⟨none, rfl, fun code hcode => by cases hcode⟩

/-- What the function does with a section that is not empty. -/
theorem ilMethodGetCode_eq {image : ILUInt32 → Option (Memory × ILUInt64)} {method : ILMethod}
    {m : Memory} {len : ILUInt64} (himage : image method.rva = some (m, len)) :
    ilMethodGetCode fromToken isLocals image method = .ok none ∨
      (len ≠ 0 ∧ ilMethodGetCode fromToken isLocals image method =
        (getHeader fromToken isLocals m len).map fun header => header.bind fun code =>
          if code.codeLen = 0 ∨ len - code.headerSize.setWidth 64 < code.codeLen.setWidth 64 then
            none
          else some { code with
            code := code.headerSize.toNat
            remaining := (len - code.headerSize.setWidth 64 -
              code.codeLen.setWidth 64).setWidth 32 }) := by
  unfold ilMethodGetCode
  rw [himage]
  split_ifs with hnone
  · exact .inl rfl
  dsimp only
  by_cases hempty : len = 0
  · rw [if_pos hempty]
    exact .inl rfl
  · rw [if_neg hempty]
    refine .inr ⟨hempty, ?_⟩
    cases getHeader fromToken isLocals m len with
    | error e => rfl
    | ok header =>
      cases header with
      | none => rfl
      | some code =>
        show (if _ then _ else _) = Except.ok (if _ then _ else _)
        split_ifs <;> rfl

theorem size_iff {hs codeLen : ILUInt32} {len : ILUInt64} {n : Nat} (hlen : len.toNat = n)
    (hfits : n < 2 ^ 32)
    (hroom : ¬ len - hs.setWidth 64 < codeLen.setWidth 64) :
    hs.toNat + codeLen.toNat +
        ((len - hs.setWidth 64 - codeLen.setWidth 64).setWidth 32 : ILUInt32).toNat = n ↔
      hs.toNat ≤ n := by
  refine ⟨fun hsum => by omega, fun hle => ?_⟩
  have hhs : (hs.setWidth 64 : ILUInt64).toNat = hs.toNat := by simp; omega
  have hcode : (codeLen.setWidth 64 : ILUInt64).toNat = codeLen.toNat := by simp; omega
  have hbehind : (len - hs.setWidth 64).toNat = n - hs.toNat := by
    rw [BitVec.toNat_sub_of_le (by rw [BitVec.le_def, hhs, hlen]; exact hle), hhs, hlen]
  rw [BitVec.lt_def, not_lt, hcode, hbehind] at hroom
  have hrest : (len - hs.setWidth 64 - codeLen.setWidth 64).toNat =
      n - hs.toNat - codeLen.toNat := by
    rw [BitVec.toNat_sub_of_le (by rw [BitVec.le_def, hcode, hbehind]; exact hroom), hcode, hbehind]
  rw [BitVec.toNat_setWidth, hrest, Nat.mod_eq_of_lt (by omega)]
  omega

/-- Header, code and what remains are the section if and only if the section is as long as
the header says that it is. -/
theorem ilMethodGetCode_sound_iff (fromToken : ILUInt32 → Option σ) (isLocals : σ → Bool)
    (image : ILUInt32 → Option (Memory × ILUInt64)) (method : ILMethod) (sec : MappedSection)
    (himage : image method.rva = some (sec.memory, sec.len)) :
    ∃ result, ilMethodGetCode fromToken isLocals image method = .ok result ∧
      ∀ code, result = some code → (BodySound method sec.bytes code ↔ HeaderFits sec.bytes) := by
  rcases ilMethodGetCode_eq himage with hrun | ⟨hlen, hrun⟩
  · exact ⟨none, hrun, fun code hcode => by cases hcode⟩
  have hpos : 0 < sec.bytes.length := by
    rw [← sec.len_eq]
    exact Nat.pos_of_ne_zero fun h => hlen (BitVec.eq_of_toNat_eq h)
  obtain ⟨header, hheader, hfits⟩ :=
    getHeader_spec fromToken isLocals sec hpos
  rw [hheader] at hrun
  refine ⟨_, hrun, fun code hcode => ?_⟩
  obtain ⟨code', rfl, hcode'⟩ := Option.bind_eq_some_iff.1 hcode
  split_ifs at hcode' with hbad
  obtain rfl := Option.some.inj hcode'
  have hroom := (not_or.1 hbad).2
  have hsize := size_iff sec.len_eq sec.fits hroom
  rw [← hfits code' rfl, ← hsize]
  refine ⟨fun hsound => hsound.size, fun hsum => ⟨hsum, rfl, fun m hwindow => ?_⟩⟩
  have hrest : (sec.bytes.drop (code'.headerSize.toNat + code'.codeLen.toNat)).length =
      ((sec.len - code'.headerSize.setWidth 64 - code'.codeLen.setWidth 64).setWidth 32 :
        ILUInt32).toNat := by
    rw [List.length_drop]
    omega
  exact ilMethodGetExceptions_spec hwindow hrest

/-- A section of these bytes, and no memory around it. -/
def MappedSection.ofBytes (bytes : List ILUInt8) (fits : bytes.length < 2 ^ 32) : MappedSection where
  bytes := bytes
  memory := fun addr => bytes[addr]?
  len := BitVec.ofNat 64 bytes.length
  window := fun i _ => by rw [Nat.zero_add]
  len_eq := by
    rw [BitVec.toNat_ofNat]
    omega
  fits := fits

/-- Four bytes of code behind a fat header, and a `finally` clause behind the code. -/
def tryFinally : MappedSection :=
  .ofBytes [0x1B, 0x30, 2, 0, 4, 0, 0, 0, 0, 0, 0, 0, 0, 0, 0, 0x2A,
    0x01, 16, 0, 0, 2, 0, 0, 0, 1, 1, 0, 2, 0, 0, 0, 0] (by decide)

theorem ilMethodGetCode_sound_sample : ∃ code : ILMethodCode Unit,
    ilMethodGetCode (fun _ => none) (fun _ => true)
      (fun _ => some (tryFinally.memory, tryFinally.len)) ⟨0x2000, 0⟩ = .ok (some code) ∧
    BodySound ⟨0x2000, 0⟩ tryFinally.bytes code := by
  obtain ⟨result, hrun, hsound⟩ := ilMethodGetCode_sound_iff (fun _ => none) (fun _ : Unit => true)
    (fun _ => some (tryFinally.memory, tryFinally.len)) ⟨0x2000, 0⟩ tryFinally rfl
  have hsome : (ilMethodGetCode (fun _ => none) (fun _ : Unit => true)
      (fun _ => some (tryFinally.memory, tryFinally.len)) ⟨0x2000, 0⟩).map Option.isSome =
      .ok true := by decide
  have hfits : HeaderFits tryFinally.bytes := by
    intro first second h0 h1 _
    obtain rfl := Option.some.inj h1
    decide
  rw [hrun] at hsome
  cases result with
  | none => cases hsome
  | some code => exact ⟨code, hrun, (hsound code rfl).2 hfits⟩

/-- A header of sixty bytes in a section of sixteen. -/
def longHeader : MappedSection :=
  .ofBytes [0x03, 0xF0, 8, 0, 4, 0, 0, 0, 0, 0, 0, 0, 0, 0, 0, 0] (by decide)

theorem not_ilMethodGetCode_sound : ¬ ∀ (method : ILMethod) (sec : MappedSection)
    (code : ILMethodCode Unit), ilMethodGetCode (fun _ => none) (fun _ => true)
      (fun _ => some (sec.memory, sec.len)) method = .ok (some code) →
    BodySound method sec.bytes code := by
  intro hsound
  have hsome : (ilMethodGetCode (fun _ => none) (fun _ : Unit => true)
      (fun _ => some (longHeader.memory, longHeader.len)) ⟨0x2000, 0⟩).map
        (fun code => code.map fun code => code.headerSize.toNat) = .ok (some 60) := by decide
  cases hrun : ilMethodGetCode (fun _ => none) (fun _ : Unit => true)
      (fun _ => some (longHeader.memory, longHeader.len)) ⟨0x2000, 0⟩ with
  | error e =>
    rw [hrun] at hsome
    cases hsome
  | ok result =>
    cases result with
    | none =>
      rw [hrun] at hsome
      cases hsome
    | some code =>
      rw [hrun] at hsome
      have hheader : code.headerSize.toNat = 60 := Option.some.inj (Except.ok.inj hsome)
      have hsize := (hsound _ longHeader code hrun).size
      have hlength : longHeader.bytes.length = 16 := rfl
      omega

end Pnet.Image.MethodCode
