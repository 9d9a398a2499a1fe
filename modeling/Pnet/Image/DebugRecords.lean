import Pnet.Image.CompressSound
import Pnet.Image.DebugReader
import Pnet.Image.MetaIndexSound

/-! What a debug section records for a token: the blocks that a loop over them sees, and the values
that their bytes encode. -/
namespace Pnet.Image.Debug

open Lib

variable {dbg : ILDebugContext} {token : ILToken} {blocks : List ILDebugBlock}

/-! ### Blocks -/

/-- The blocks of the token, in the order of the index. -/
def TokenBlocks (dbg : ILDebugContext) (token : ILToken) (blocks : List ILDebugBlock) : Prop :=
  ∃ iter, ilDebugIterInit dbg token = .ok iter ∧ Yields dbg iter blocks

theorem nextBlock_some {count i next : Nat} {block : ILDebugBlock}
    (h : nextBlock dbg count i = .ok (some (block, next))) : i < next ∧ next ≤ i + count := by
  induction count generalizing i with
  | zero => cases h
  | succ count ih =>
    rw [nextBlock] at h
    obtain ⟨found, -, hfound⟩ := bind_ok h
    cases found with
    | none =>
      have hnext := ih hfound
      omega
    | some other =>
      cases hfound
      omega

theorem ilDebugIterNext_some {iter iter' : ILDebugIter} {block : ILDebugBlock}
    (h : ilDebugIterNext dbg iter = .ok (some (block, iter'))) :
    iter'.reserved2 = iter.reserved2 ∧ iter.reserved1 < iter'.reserved1 ∧
      iter'.reserved1 ≤ iter.reserved2 := by
  rw [ilDebugIterNext] at h
  obtain ⟨found, hfound, hmap⟩ := bind_ok h
  cases found with
  | none => cases hmap
  | some next =>
    cases hmap
    have hnext := nextBlock_some hfound
    refine ⟨rfl, hnext.1, ?_⟩
    change next.2 ≤ _
    omega

theorem forBlocks_eq {S : Type} (body : S → ILDebugBlock → S) {iter : ILDebugIter}
    (h : Yields dbg iter blocks) {steps : Nat} (hsteps : iter.reserved2 - iter.reserved1 ≤ steps)
    (state : S) : forBlocks dbg body steps iter state = .ok (blocks.foldl body state) := by
  induction h generalizing steps state with
  | done hnext =>
    cases steps with
    | zero => rfl
    | succ steps =>
      rw [forBlocks, hnext]
      rfl
  | next hnext _ ih =>
    have hiter := ilDebugIterNext_some hnext
    obtain ⟨steps, rfl⟩ := Nat.exists_eq_succ_of_ne_zero (show steps ≠ 0 by omega)
    rw [forBlocks, hnext]
    exact ih (by omega) _

theorem forToken_eq {S : Type} (h : TokenBlocks dbg token blocks) (body : S → ILDebugBlock → S)
    (state : S) : forToken dbg token body state = .ok (blocks.foldl body state) := by
  obtain ⟨iter, hinit, hyields⟩ := h
  rw [forToken, hinit, ok_bind]
  exact forBlocks_eq body hyields le_rfl state

section Total

variable (hindex : dbg.indexSize = 0 ∨ dbg.index + dbg.indexSize * 8 ≤ dbg.bytes.length)
include hindex

end Total

/-! ### Values -/

/-- The bytes are read as the value, whatever follows them. -/
def Encodes (value : ILUInt32) (bytes : List ILUInt8) : Prop :=
  ∀ rest, ilMetaUncompressData ⟨bytes ++ rest, false⟩ = (value, ⟨rest, false⟩)

theorem encodes_ilMetaCompressData (value : ILUInt32) :
    Encodes value (ilMetaCompressData value) :=
  ilMetaUncompressData_compressData value

theorem Encodes.ne_nil {value : ILUInt32} {bytes : List ILUInt8} (h : Encodes value bytes) :
    bytes ≠ [] := by
  rintro rfl
  cases h []

theorem error_of_error {reader : ILMetaDataRead} (h : reader.error = true) :
    (ilMetaUncompressData reader).2.error = true := by
  obtain ⟨data, error⟩ := reader
  cases h
  unfold ilMetaUncompressData
  repeat' split
  all_goals rfl

/-- A value that is read is the one that the bytes before the rest encode. -/
theorem encodes_of_eq {data rest : List ILUInt8} {value : ILUInt32}
    (h : ilMetaUncompressData ⟨data, false⟩ = (value, ⟨rest, false⟩)) :
    ∃ bytes, data = bytes ++ rest ∧ Encodes value bytes := by
  unfold ilMetaUncompressData at h
  split at h
  · cases h
  · rename_i ch tail hdata
    cases hdata
    split_ifs at h with h1 h2 h3 h4
    · cases h
      refine ⟨[ch], rfl, fun rest => ?_⟩
      simp only [List.cons_append, List.nil_append, ilMetaUncompressData]
      rw [if_pos h1]
    · split at h
      · rename_i ch2 tail
        cases h
        refine ⟨[ch, ch2], rfl, fun rest => ?_⟩
        simp only [List.cons_append, List.nil_append, ilMetaUncompressData]
        rw [if_neg h1, if_pos h2]
      · cases h
    · split at h
      · rename_i ch2 ch3 ch4 tail
        cases h
        refine ⟨[ch, ch2, ch3, ch4], rfl, fun rest => ?_⟩
        simp only [List.cons_append, List.nil_append, ilMetaUncompressData]
        rw [if_neg h1, if_neg h2, if_pos h3]
      · cases h
    · split at h
      · rename_i ch1 ch2 ch3 ch4 tail
        cases h
        refine ⟨[ch, ch1, ch2, ch3, ch4], rfl, fun rest => ?_⟩
        simp only [List.cons_append, List.nil_append, ilMetaUncompressData]
        rw [if_neg h1, if_neg h2, if_neg h3, if_pos h4]
      · cases h
    · cases h

/-- Bytes that can be read begin with the encoding of a value. -/
theorem encodes_or_error (data : List ILUInt8) :
    (ilMetaUncompressData ⟨data, false⟩).2.error = true ∨
      ∃ value bytes rest, data = bytes ++ rest ∧ Encodes value bytes := by
  rcases hread : ilMetaUncompressData ⟨data, false⟩ with ⟨value, rest, error⟩
  cases error with
  | true => exact Or.inl rfl
  | false =>
    obtain ⟨bytes, hbytes, hencodes⟩ := encodes_of_eq hread
    exact Or.inr ⟨value, bytes, rest, hbytes, hencodes⟩

/-- The bytes encode the values, one after the other. -/
inductive EncodesAll : List ILUInt32 → List ILUInt8 → Prop
  | nil : EncodesAll [] []
  | cons {value : ILUInt32} {values : List ILUInt32} {bytes rest : List ILUInt8}
      (h : Encodes value bytes) (hrest : EncodesAll values rest) :
      EncodesAll (value :: values) (bytes ++ rest)

theorem encodesAll_nil {bytes : List ILUInt8} : EncodesAll [] bytes ↔ bytes = [] := by
  constructor
  · rintro ⟨⟩
    rfl
  · rintro rfl
    exact .nil

theorem encodesAll_cons {value : ILUInt32} {values : List ILUInt32} {bytes : List ILUInt8} :
    EncodesAll (value :: values) bytes ↔
      ∃ front rest, bytes = front ++ rest ∧ Encodes value front ∧ EncodesAll values rest := by
  constructor
  · rintro ⟨⟩
    exact ⟨_, _, rfl, by assumption, by assumption⟩
  · rintro ⟨front, rest, rfl, h, hrest⟩
    exact .cons h hrest

theorem EncodesAll.ne_nil {value : ILUInt32} {values : List ILUInt32} {bytes : List ILUInt8}
    (h : EncodesAll (value :: values) bytes) : bytes ≠ [] := by
  obtain ⟨front, rest, rfl, hfront, -⟩ := encodesAll_cons.mp h
  exact List.append_ne_nil_of_left_ne_nil hfront.ne_nil rest

theorem encodesAll_flatMap (values : List ILUInt32) :
    EncodesAll values (values.flatMap ilMetaCompressData) := by
  induction values with
  | nil => exact .nil
  | cons value values ih => exact .cons (encodes_ilMetaCompressData value) ih

theorem encodesAll_append {values values' : List ILUInt32} {bytes : List ILUInt8} :
    EncodesAll (values ++ values') bytes ↔
      ∃ front rest, bytes = front ++ rest ∧ EncodesAll values front ∧ EncodesAll values' rest := by
  induction values generalizing bytes with
  | nil =>
    constructor
    · intro h
      exact ⟨[], bytes, rfl, .nil, h⟩
    · rintro ⟨front, rest, rfl, hfront, hrest⟩
      obtain rfl := encodesAll_nil.mp hfront
      exact hrest
  | cons value values ih =>
    rw [List.cons_append, encodesAll_cons]
    constructor
    · rintro ⟨first, others, rfl, h, hothers⟩
      obtain ⟨front, rest, rfl, hfront, hrest⟩ := ih.mp hothers
      exact ⟨first ++ front, rest, (List.append_assoc ..).symm, .cons h hfront, hrest⟩
    · rintro ⟨front, rest, rfl, hfront, hrest⟩
      obtain ⟨first, others, rfl, h, hothers⟩ := encodesAll_cons.mp hfront
      exact ⟨first, others ++ rest, List.append_assoc .., h, ih.mpr ⟨_, _, rfl, hothers, hrest⟩⟩

/-! ### Items -/

/-- The C string at the start of the memory. -/
abbrev cString (memory : List ILUInt8) : List ILUInt8 := memory.takeWhile (· ≠ 0)

/-- Items that are read from the bytes of a block, one after the other. -/
structure ItemFormat (ι : Type) where
  read : ILMetaDataRead → ι × ILMetaDataRead
  values : ι → List ILUInt32
  Holds : ι → Prop
  values_ne_nil : ∀ item, values item ≠ []
  read_eq : ∀ {item bytes}, EncodesAll (values item) bytes → Holds item →
    ∀ rest, read ⟨bytes ++ rest, false⟩ = (item, ⟨rest, false⟩)
  read_or_error : ∀ data, (read ⟨data, false⟩).2.error = true ∨
    ∃ item bytes rest, data = bytes ++ rest ∧ EncodesAll (values item) bytes ∧ Holds item

namespace ItemFormat

variable {ι S : Type} {format : ItemFormat ι} {items : List ι} {data : List ILUInt8}

/-- The bytes are those of the items, and of no other one behind them. -/
structure Records (format : ItemFormat ι) (items : List ι) (data : List ILUInt8) : Prop where
  split : ∃ bytes tail, data = bytes ++ tail ∧ EncodesAll (items.flatMap format.values) bytes ∧
    (format.read ⟨tail, false⟩).2.error = true
  holds : ∀ item ∈ items, format.Holds item

/-- A loop over the items, until the bytes end or an item ends before it is complete. -/
def loop (format : ItemFormat ι) (body : S → ι → S) : Nat → ILMetaDataRead → S → S
  | 0, _, state => state
  | steps + 1, reader, state =>
    if reader.data = [] then state
    else if (format.read reader).2.error then state
    else loop format body steps (format.read reader).2 (body state (format.read reader).1)

theorem ne_nil_of_encodesAll {item : ι} {bytes : List ILUInt8}
    (h : EncodesAll (format.values item) bytes) : bytes ≠ [] := by
  obtain ⟨value, values, hvalues⟩ := List.exists_cons_of_ne_nil (format.values_ne_nil item)
  rw [hvalues] at h
  exact h.ne_nil

theorem loop_eq (h : format.Records items data) (body : S → ι → S) {steps : Nat}
    (hsteps : data.length ≤ steps) (state : S) :
    format.loop body steps ⟨data, false⟩ state = items.foldl body state := by
  obtain ⟨⟨bytes, tail, rfl, hbytes, htail⟩, hholds⟩ := h
  induction items generalizing bytes steps state with
  | nil =>
    obtain rfl := encodesAll_nil.mp hbytes
    cases steps with
    | zero => rfl
    | succ steps =>
      rw [loop, List.nil_append, if_pos htail, ite_self]
      rfl
  | cons item items ih =>
    rw [List.flatMap_cons] at hbytes
    obtain ⟨front, rest, rfl, hitem, hrest⟩ := encodesAll_append.mp hbytes
    have hne := ne_nil_of_encodesAll hitem
    have hpos := List.length_pos_iff.mpr hne
    rw [List.length_append, List.length_append] at hsteps
    obtain ⟨steps, rfl⟩ := Nat.exists_eq_succ_of_ne_zero (show steps ≠ 0 by omega)
    have hdata : front ++ rest ++ tail ≠ [] := by
      simp [hne]
    have hread := format.read_eq hitem (hholds item List.mem_cons_self) (rest ++ tail)
    rw [loop, if_neg hdata, List.append_assoc, hread]
    have hlength : (rest ++ tail).length ≤ steps := by
      rw [List.length_append]
      omega
    exact ih _ (fun other hother => hholds other (List.mem_cons_of_mem _ hother)) rest hlength hrest

end ItemFormat

/-! ### All the blocks of a token -/

section Tokens

variable {ι S : Type} {records : ILDebugBlock → List ι → Prop} {items : List ι}

/-- The items that the section records for a token, in the order of its blocks. -/
def RecordedItems (records : ILDebugBlock → List ι → Prop) (dbg : ILDebugContext) (token : ILToken)
    (items : List ι) : Prop :=
  ∃ blocks parts, TokenBlocks dbg token blocks ∧ List.Forall₂ records blocks parts ∧
    items = parts.flatten

theorem RecordedItems.forToken_eq (h : RecordedItems records dbg token items)
    {onBlock : S → ILDebugBlock → S} {onItem : S → ι → S} (hblock : ∀ {block part}, records block part →
      ∀ state, onBlock state block = part.foldl onItem state) (state : S) :
    forToken dbg token onBlock state = .ok (items.foldl onItem state) := by
  obtain ⟨blocks, parts, hblocks, hparts, rfl⟩ := h
  rw [Debug.forToken_eq hblocks]
  congr 1
  clear hblocks
  induction hparts generalizing state with
  | nil => rfl
  | cons hpart _ ih =>
    rw [List.foldl_cons, List.flatten_cons, List.foldl_append, hblock hpart]
    exact ih _

end Tokens

end Pnet.Image.Debug
