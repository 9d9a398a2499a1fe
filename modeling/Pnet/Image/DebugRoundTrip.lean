import Pnet.Image.CompressSound
import Pnet.Image.DebugReader
import Pnet.Image.DebugWriter

/-! What the reader of a debug section makes of the section that is written. The invariant of the
calls says where each block and each string is. -/
namespace Pnet.Image.Debug
open Lib

variable {I : Type} {tokenOf : I → ILToken}

/-! ### Numbers -/

theorem ilReadUInt32_ilWriteUInt32 (pre : List ILUInt8) (value : ILUInt32) (post : List ILUInt8)
    {posn : Nat} (hposn : posn = pre.length) :
    ilReadUInt32 (pre ++ (ilWriteUInt32 value ++ post)) posn = .ok value := by
  have hbyte (k : Nat) : ((value >>> k).setWidth 8 : ILUInt8).toNat = value.toNat / 2 ^ k % 2 ^ 8 :=
    Bits.toNat_setWidth_ushiftRight ..
  have hlow : (value.setWidth 8 : ILUInt8).toNat = value.toNat % 2 ^ 8 := BitVec.toNat_setWidth ..
  have hlt := value.isLt
  rw [ilReadUInt32, hposn, List.drop_left]
  refine congrArg Except.ok (BitVec.eq_of_toNat_eq ?_)
  rw [Bits.toNat_join4, hlow, hbyte, hbyte, hbyte]
  omega

/-! ### Calls -/

/-- The lengths that are passed fit 32 bits. -/
def Call.InRange : Call I → Prop
  | .string str => str.bytes.length < 2 ^ 32
  | .add _ _ info | .addPseudo _ _ info => info.length < 2 ^ 32

def encodeBlock (type : ILUInt32) (info : List ILUInt8) : List ILUInt8 :=
  ilMetaCompressData type ++ (ilMetaCompressData (BitVec.ofNat 32 info.length) ++ info)

/-- `part` is in the bytes, `base` and the offset behind their start. -/
def At (bytes part : List ILUInt8) (base : Nat) (offset : ILUInt32) : Prop :=
  ∃ pre post, bytes = pre ++ (part ++ post) ∧ offset = BitVec.ofNat 32 (base + pre.length)

theorem At.append {bytes part : List ILUInt8} {base : Nat} {offset : ILUInt32}
    (h : At bytes part base offset) (more : List ILUInt8) : At (bytes ++ more) part base offset := by
  obtain ⟨pre, post, rfl, hoffset⟩ := h
  exact ⟨pre, post ++ more, by simp only [List.append_assoc], hoffset⟩

theorem at_end (bytes part : List ILUInt8) (base : Nat) :
    At (bytes ++ part) part base (BitVec.ofNat 32 (base + bytes.length)) :=
  ⟨bytes, [], by rw [List.append_nil], rfl⟩

/-- The part of the bytes, when their number does not wrap. -/
theorem At.spec {bytes part : List ILUInt8} {base : Nat} {offset : ILUInt32}
    (h : At bytes part base offset) (hsmall : base + bytes.length < 2 ^ 32) :
    ∃ post, base ≤ offset.toNat ∧ offset.toNat + part.length ≤ base + bytes.length ∧
      bytes.drop (offset.toNat - base) = part ++ post := by
  obtain ⟨pre, post, rfl, rfl⟩ := h
  simp only [List.length_append] at hsmall ⊢
  have hoffset : (BitVec.ofNat 32 (base + pre.length)).toNat = base + pre.length :=
    Nat.mod_eq_of_lt (by omega)
  refine ⟨post, by omega, by omega, ?_⟩
  rw [hoffset, Nat.add_sub_cancel_left, List.drop_left]

/-- A list of buffers that has been added to. -/
structure BufferSound (list : ILWBufferList) : Prop where
  wellFormed : list.chunks.WellFormed ilWriteBufferSize
  offset_eq : list.offset = BitVec.ofNat 32 list.chunks.contents.length

theorem BufferSound.add {list : ILWBufferList} (h : BufferSound list) {buffer : List ILUInt8}
    (hsize : buffer.length < 2 ^ 32) :
    BufferSound (ilwBufferListAdd list buffer (BitVec.ofNat 32 buffer.length)) ∧
      (ilwBufferListAdd list buffer (BitVec.ofNat 32 buffer.length)).chunks.contents =
        list.chunks.contents ++ buffer := by
  have htake : buffer.take (BitVec.ofNat 32 buffer.length).toNat = buffer := by
    rw [BitVec.toNat_ofNat, Nat.mod_eq_of_lt hsize, List.take_length]
  have hcontents : (ilwBufferListAdd list buffer (BitVec.ofNat 32 buffer.length)).chunks.contents =
      list.chunks.contents ++ buffer := by
    rw [ilwBufferListAdd, htake]
    exact h.wellFormed.contents_add (by decide) buffer
  refine ⟨⟨h.wellFormed.add (by decide) _, ?_⟩, hcontents⟩
  rw [hcontents, List.length_append, BitVec.ofNat_add, ← h.offset_eq, ilwBufferListAdd]

/-- An entry of the index, and the block that it is of. -/
structure Recorded (tokenOf : I → ILToken) (data : List ILUInt8) (entry : ILDebugToken I)
    (block : ILToken × ILUInt32 × List ILUInt8) : Prop where
  token_eq : entry.token tokenOf = block.1
  at_offset : At data (encodeBlock block.2.1 block.2.2) 24 entry.offset
  length_lt : block.2.2.length < 2 ^ 32

/-- What holds of a writer after calls that have added some blocks. -/
structure Inv (tokenOf : I → ILToken) (writer : ILWriter I)
    (blocks : List (ILToken × ILUInt32 × List ILUInt8)) : Prop where
  data : BufferSound writer.debugData
  strings : BufferSound writer.debugStrings
  tokens : List.Forall₂ (Recorded tokenOf writer.debugData.chunks.contents) writer.debugTokens blocks
  hash : ∀ item ∈ writer.debugHash,
    At writer.debugStrings.chunks.contents (item.name ++ [0]) 0 item.offset
  terminated : writer.debugStrings.chunks.contents = [] ∨
    writer.debugStrings.chunks.contents.getLast? = some 0

theorem inv_start : Inv tokenOf ({} : ILWriter I) [] where
  data := ⟨Chunks.wellFormed_empty, rfl⟩
  strings := ⟨Chunks.wellFormed_empty, rfl⟩
  tokens := .nil
  hash := nofun
  terminated := .inl rfl

variable {writer : ILWriter I} {blocks : List (ILToken × ILUInt32 × List ILUInt8)}

theorem Inv.writerDebugAdd (h : Inv tokenOf writer blocks) {item : Option I} {pseudo token : ILToken}
    (htoken : (⟨item, pseudo, 0⟩ : ILDebugToken I).token tokenOf = token) (type : ILUInt32)
    {info : List ILUInt8} (hinfo : info.length < 2 ^ 32) :
    Inv tokenOf (writerDebugAdd writer item pseudo type info) (blocks ++ [(token, type, info)]) := by
  have hheader : (ilMetaCompressData type ++
      ilMetaCompressData (BitVec.ofNat 32 info.length)).length < 2 ^ 32 := by
    have htype := (length_ilMetaCompressData type).2
    have hlength := (length_ilMetaCompressData (BitVec.ofNat 32 info.length)).2
    rw [List.length_append]
    omega
  obtain ⟨hfirst, hcontents⟩ := h.data.add hheader
  obtain ⟨hsecond, hcontents'⟩ := hfirst.add hinfo
  rw [hcontents, List.append_assoc, List.append_assoc] at hcontents'
  refine ⟨hsecond, h.strings, ?_, h.hash, h.terminated⟩
  have hall : List.Forall₂ (Recorded tokenOf (writer.debugData.chunks.contents ++
      encodeBlock type info)) writer.debugTokens blocks :=
    h.tokens.imp fun entry block hrecorded =>
      ⟨hrecorded.token_eq, hrecorded.at_offset.append _, hrecorded.length_lt⟩
  have hoffset : writer.debugData.offset + debugHeaderSize =
      BitVec.ofNat 32 (24 + writer.debugData.chunks.contents.length) := by
    rw [h.data.offset_eq, Nat.add_comm, BitVec.ofNat_add]
    rfl
  unfold Debug.writerDebugAdd
  rw [hcontents']
  refine List.rel_append hall (.cons ⟨htoken, ?_, hinfo⟩ .nil)
  simp only [hoffset]
  exact at_end _ _ 24

theorem Inv.ilWriterDebugString (h : Inv tokenOf writer blocks) {str : CString}
    (hstr : str.bytes.length < 2 ^ 32) :
    Inv tokenOf (ilWriterDebugString writer str).2 blocks ∧
      writer.debugHash ⊆ (ilWriterDebugString writer str).2.debugHash ∧
      ⟨str.chars, (ilWriterDebugString writer str).1⟩ ∈
        (ilWriterDebugString writer str).2.debugHash := by
  unfold Debug.ilWriterDebugString
  cases hfind : writer.debugHash.find? fun item => item.name = str.chars with
  | some item =>
    have hname : item.name = str.chars := by simpa using List.find?_some hfind
    refine ⟨h, fun _ hmem => hmem, ?_⟩
    rw [← hname]
    exact List.mem_of_find?_eq_some hfind
  | none =>
    obtain ⟨hsound, hcontents⟩ := h.strings.add hstr
    refine ⟨⟨h.data, hsound, h.tokens, ?_, .inr ?_⟩, List.subset_cons_self _ _, List.mem_cons_self⟩
    · intro item hitem
      simp only [hcontents]
      rcases List.mem_cons.1 hitem with rfl | hold
      · simp only [h.strings.offset_eq]
        rw [← Nat.zero_add writer.debugStrings.chunks.contents.length]
        exact at_end _ _ 0
      · exact (h.hash item hold).append _
    · simp only [hcontents]
      rw [CString.bytes, ← List.append_assoc, List.getLast?_concat]

/-- The strings of the hash table stay. -/
theorem debugHash_run (writer : ILWriter I) (call : Call I) :
    writer.debugHash ⊆ (call.run writer).debugHash := by
  cases call with
  | string str =>
    intro item hitem
    unfold Call.run Debug.ilWriterDebugString
    dsimp only
    split
    · exact hitem
    · exact List.mem_cons_of_mem _ hitem
  | add | addPseudo => exact fun _ hitem => hitem

/-- What one call preserves. -/
theorem Inv.run (h : Inv tokenOf writer blocks) {call : Call I} (hcall : call.InRange) :
    Inv tokenOf (call.run writer) (blocks ++ (call.block tokenOf).toList) := by
  cases call with
  | string str =>
    rw [Call.block, Option.toList_none, List.append_nil]
    exact (h.ilWriterDebugString hcall).1
  | add item type info => exact h.writerDebugAdd rfl type hcall
  | addPseudo token type info => exact h.writerDebugAdd rfl type hcall

theorem Inv.runAll (h : Inv tokenOf writer blocks) {calls : List (Call I)}
    (hcalls : ∀ call ∈ calls, call.InRange) :
    Inv tokenOf (calls.foldl Call.run writer) (blocks ++ calls.filterMap (Call.block tokenOf)) ∧
      writer.debugHash ⊆ (calls.foldl Call.run writer).debugHash ∧
      ∀ result ∈ returned writer calls,
        ⟨result.1.chars, result.2⟩ ∈ (calls.foldl Call.run writer).debugHash := by
  induction calls generalizing writer blocks with
  | nil => exact ⟨by simpa using h, fun _ hitem => hitem, nofun⟩
  | cons call calls ih =>
    obtain ⟨hcall, hcalls⟩ := List.forall_mem_cons.1 hcalls
    obtain ⟨hinv, hsubset, hreturned⟩ := ih (h.run hcall) hcalls
    refine ⟨?_, fun item hitem => hsubset (debugHash_run writer call hitem), ?_⟩
    · rw [List.foldl_cons, List.filterMap_cons]
      rw [List.append_assoc] at hinv
      cases hblock : call.block tokenOf with
      | none => rwa [hblock] at hinv
      | some block => rwa [hblock] at hinv
    · intro result hresult
      rcases List.mem_append.1 hresult with hnow | hlater
      · cases call with
        | string str =>
          obtain rfl := List.mem_singleton.1 hnow
          exact hsubset (h.ilWriterDebugString hcall).2.2
        | add | addPseudo => cases hnow
      · exact hreturned result hlater

/-! ### The section -/

def encodeEntry (entry : ILToken × ILUInt32) : List ILUInt8 :=
  ilWriteUInt32 entry.1 ++ ilWriteUInt32 entry.2

/-- The parts of a section. -/
def sectionBytes (data strings : List ILUInt8) (pad : Nat) (entries : List (ILToken × ILUInt32)) :
    List ILUInt8 :=
  [0x49, 0x4C, 0x44, 0x42] ++ (ilWriteUInt32 1 ++
    (ilWriteUInt32 (BitVec.ofNat 32 (24 + data.length + strings.length + pad)) ++
      (ilWriteUInt32 (BitVec.ofNat 32 entries.length) ++
        (ilWriteUInt32 (BitVec.ofNat 32 (24 + data.length)) ++
          (ilWriteUInt32 (BitVec.ofNat 32 strings.length) ++
            (data ++ (strings ++ (List.replicate pad 0 ++ entries.flatMap encodeEntry))))))))

@[simp] theorem length_ilWriteUInt32 (value : ILUInt32) : (ilWriteUInt32 value).length = 4 := rfl

@[simp] theorem length_flatMap_encodeEntry (entries : List (ILToken × ILUInt32)) :
    (entries.flatMap encodeEntry).length = 8 * entries.length := by
  induction entries with
  | nil => rfl
  | cons entry rest ih =>
    rw [List.flatMap_cons, List.length_append, ih, encodeEntry, List.length_append,
      length_ilWriteUInt32, length_ilWriteUInt32, List.length_cons]
    omega

section Section

variable {data strings : List ILUInt8} {pad : Nat} {entries : List (ILToken × ILUInt32)}

theorem length_sectionBytes :
    (sectionBytes data strings pad entries).length =
      24 + data.length + strings.length + pad + 8 * entries.length := by
  simp only [sectionBytes, List.length_append, length_ilWriteUInt32, List.length_cons,
    List.length_nil, List.length_replicate, length_flatMap_encodeEntry]
  omega

/-- The section from the data on. -/
theorem drop_sectionBytes (posn : Nat) :
    (sectionBytes data strings pad entries).drop (24 + posn) =
      (data ++ (strings ++ (List.replicate pad 0 ++ entries.flatMap encodeEntry))).drop posn := by
  rw [← List.drop_drop]
  rfl

/-- An entry of the index, between the others. -/
theorem sectionBytes_eq {i : Nat} (hi : i < entries.length) :
    ∃ front post, sectionBytes data strings pad entries =
        front ++ (ilWriteUInt32 entries[i].1 ++ (ilWriteUInt32 entries[i].2 ++ post)) ∧
      front.length = 24 + data.length + strings.length + pad + i * 8 := by
  have hsplit : entries = entries.take i ++ entries[i] :: entries.drop (i + 1) := by
    rw [List.getElem_cons_drop, List.take_append_drop]
  refine ⟨(sectionBytes data strings pad entries).take
      (24 + data.length + strings.length + pad + i * 8),
    (entries.drop (i + 1)).flatMap encodeEntry, ?_, ?_⟩
  · have hdrop : (sectionBytes data strings pad entries).drop
        (24 + data.length + strings.length + pad + i * 8) =
          encodeEntry entries[i] ++ (entries.drop (i + 1)).flatMap encodeEntry := by
      rw [show 24 + data.length + strings.length + pad + i * 8 =
        24 + (data.length + (strings.length + (pad + i * 8))) by omega, drop_sectionBytes,
        List.drop_length_add_append, List.drop_length_add_append]
      conv_lhs => rw [show pad + i * 8 = (List.replicate pad (0 : ILUInt8)).length + i * 8 by simp]
      rw [List.drop_length_add_append]
      conv_lhs => rw [hsplit, List.flatMap_append, List.flatMap_cons]
      apply List.drop_left'
      rw [length_flatMap_encodeEntry, List.length_take, Nat.min_eq_left hi.le, Nat.mul_comm]
    rw [encodeEntry, List.append_assoc] at hdrop
    rw [← hdrop, List.take_append_drop]
  · rw [List.length_take, length_sectionBytes]
    omega

/-- A context of the section that is written. -/
structure Opened (dbg : ILDebugContext) (data strings : List ILUInt8) (pad : Nat)
    (entries : List (ILToken × ILUInt32)) : Prop where
  bytes_eq : dbg.bytes = sectionBytes data strings pad entries
  index_eq : 0 < entries.length → dbg.index = 24 + data.length + strings.length + pad
  indexSize_eq : dbg.indexSize = entries.length
  strings_eq : dbg.strings = 24 + data.length
  stringsLen_eq : dbg.stringsLen = strings.length

variable (hsmall : (sectionBytes data strings pad entries).length < 2 ^ 32)
include hsmall

/-- The checks of the reader accept the section. -/
theorem exists_ilDebugCreate (hstrings : strings.getLast? = some 0) :
    ∃ dbg, ilDebugCreate (sectionBytes data strings pad entries) = .ok dbg ∧
      Opened dbg data strings pad entries := by
  have hlength := @length_sectionBytes data strings pad entries
  have hpos : 0 < strings.length := List.length_pos_iff.2 (by rintro rfl; cases hstrings)
  have hofNat {n : Nat} (hn : n < 2 ^ 32) : (BitVec.ofNat 32 n).toNat = n := Nat.mod_eq_of_lt hn
  have h4 : ilReadUInt32 (sectionBytes data strings pad entries) 4 = .ok 1 :=
    ilReadUInt32_ilWriteUInt32 [0x49, 0x4C, 0x44, 0x42] 1 _ rfl
  have h8 : ilReadUInt32 (sectionBytes data strings pad entries) 8 =
      .ok (BitVec.ofNat 32 (24 + data.length + strings.length + pad)) := by
    rw [sectionBytes, ← List.append_assoc]
    exact ilReadUInt32_ilWriteUInt32 _ _ _ rfl
  have h12 : ilReadUInt32 (sectionBytes data strings pad entries) 12 =
      .ok (BitVec.ofNat 32 entries.length) := by
    rw [sectionBytes, ← List.append_assoc, ← List.append_assoc]
    exact ilReadUInt32_ilWriteUInt32 _ _ _ rfl
  have h16 : ilReadUInt32 (sectionBytes data strings pad entries) 16 =
      .ok (BitVec.ofNat 32 (24 + data.length)) := by
    rw [sectionBytes, ← List.append_assoc, ← List.append_assoc, ← List.append_assoc]
    exact ilReadUInt32_ilWriteUInt32 _ _ _ rfl
  have h20 : ilReadUInt32 (sectionBytes data strings pad entries) 20 =
      .ok (BitVec.ofNat 32 strings.length) := by
    rw [sectionBytes, ← List.append_assoc, ← List.append_assoc, ← List.append_assoc,
      ← List.append_assoc]
    exact ilReadUInt32_ilWriteUInt32 _ _ _ rfl
  have hlast : (sectionBytes data strings pad entries)[24 + data.length + strings.length - 1]? =
      some 0 := by
    have hposn : 24 + data.length + strings.length - 1 =
      24 + (data.length + (strings.length - 1)) := by omega
    rw [hposn, ← List.head?_drop, drop_sectionBytes, List.head?_drop,
      List.getElem?_append_right (by omega), Nat.add_sub_cancel_left,
      List.getElem?_append_left (by omega), ← List.getLast?_eq_getElem?, hstrings]
  have hreadStrings : readStrings (sectionBytes data strings pad entries) =
      .ok (24 + data.length, strings.length) := by
    rw [readStrings, h16, ok_bind, hofNat (by omega), if_pos (by omega), h20, ok_bind,
      hofNat (by omega), if_pos ⟨hpos, by omega, hlast⟩]
  have hreadIndex : ∃ index, readIndex (sectionBytes data strings pad entries) =
        .ok (index, entries.length) ∧
      (0 < entries.length → index = 24 + data.length + strings.length + pad) := by
    rw [readIndex, h8, ok_bind, hofNat (by omega)]
    by_cases hentries : 0 < entries.length
    · refine ⟨24 + data.length + strings.length + pad, ?_, fun _ => rfl⟩
      rw [if_pos (by omega), h12, ok_bind, hofNat (by omega), if_pos]
      refine ⟨?_, by omega⟩
      rw [BitVec.lt_def, hofNat (by omega)]
      show entries.length < 0x20000000
      omega
    · refine ⟨0, ?_, fun h => absurd h hentries⟩
      rw [if_neg (by omega), Nat.eq_zero_of_not_pos hentries]
  obtain ⟨index, hindex, hindexEq⟩ := hreadIndex
  refine ⟨⟨sectionBytes data strings pad entries, index, entries.length, 24 + data.length,
    strings.length⟩, ?_, ⟨rfl, hindexEq, rfl, rfl, rfl⟩⟩
  rw [ilDebugCreate, if_neg, h4, ok_bind, if_neg (not_not.2 rfl), hindex, ok_bind, hreadStrings]
  · rfl
  · rintro (hshort | hmagic)
    · omega
    · exact hmagic rfl

/-! ### Blocks -/

variable {dbg : ILDebugContext} (hdbg : Opened dbg data strings pad entries)
include hdbg

/-- How an entry compares with a token. -/
def compareToken (entries : List (ILToken × ILUInt32)) (token : ILToken) (i : Nat) : Ordering :=
  match entries[i]? with
  | some entry => if entry.1 = token then .eq else if entry.1 < token then .lt else .gt
  | none => .gt

theorem sorted_testToken (hsorted : entries.Pairwise fun x y => x.1.toNat ≤ y.1.toNat)
    (token : ILToken) :
    SortedSearch.Sorted (testToken dbg token) entries.length (compareToken entries token) := by
  have hle {i j : Nat} (hij : i ≤ j) (hj : j < entries.length) :
      entries[i].1.toNat ≤ entries[j].1.toNat := by
    rcases Nat.lt_or_eq_of_le hij with hlt | rfl
    · exact List.pairwise_iff_getElem.1 hsorted i j (by omega) hj hlt
    · exact le_rfl
  refine ⟨fun i hi => ?_, fun i j hij hj hlt => ?_, fun i j hij hj hgt => ?_⟩
  · obtain ⟨front, post, hsection, hfront⟩ := @sectionBytes_eq data strings pad entries i hi
    rw [testToken, hdbg.bytes_eq, hdbg.index_eq (by omega), hsection,
      ilReadUInt32_ilWriteUInt32 _ _ _ hfront.symm, ok_bind, compareToken,
      List.getElem?_eq_getElem hi]
  · have hi : i < entries.length := by omega
    have hkeys := hle hij hj
    simp only [compareToken, List.getElem?_eq_getElem hi, List.getElem?_eq_getElem hj] at hlt ⊢
    split_ifs at hlt with hne hless
    rw [BitVec.lt_def] at hless
    rw [if_neg, if_pos]
    · rw [BitVec.lt_def]
      omega
    · rintro rfl
      omega
  · have hi : i < entries.length := by omega
    have hkeys := hle hij hj
    simp only [compareToken, List.getElem?_eq_getElem hi, List.getElem?_eq_getElem hj] at hgt ⊢
    split_ifs at hgt with hne hless
    rw [BitVec.lt_def] at hless
    have hneNat : entries[i].1.toNat ≠ token.toNat := fun heq => hne (BitVec.eq_of_toNat_eq heq)
    rw [if_neg, if_neg]
    · rw [BitVec.lt_def]
      omega
    · rintro rfl
      omega

/-- The entries of a token are those of an interval. -/
theorem exists_ilDebugIterInit (hsorted : entries.Pairwise fun x y => x.1.toNat ≤ y.1.toNat)
    (token : ILToken) :
    ∃ iter, ilDebugIterInit dbg token = .ok iter ∧ iter.reserved1 ≤ iter.reserved2 ∧
      iter.reserved2 ≤ entries.length ∧
      ∀ i (hi : i < entries.length),
        entries[i].1 = token ↔ iter.reserved1 ≤ i ∧ i < iter.reserved2 := by
  have hsearch := sorted_testToken hsmall hdbg hsorted token
  have hcompare (i : Nat) (hi : i < entries.length) :
      entries[i].1 = token ↔ compareToken entries token i = .eq := by
    rw [compareToken, List.getElem?_eq_getElem hi]
    dsimp only
    split_ifs with heq <;> simp [heq]
  have hbefore : ∀ i < 0, compareToken entries token i ≠ .eq := nofun
  have hbehind : ∀ i, entries.length ≤ i → i < entries.length → compareToken entries token i ≠ .eq :=
    fun i hle hlt => absurd hlt (not_lt.2 hle)
  obtain ⟨found, hfound, hspec⟩ := hsearch.search (Nat.sub_le _ _) le_rfl hbefore hbehind
  rw [ilDebugIterInit, hdbg.indexSize_eq, hfound, ok_bind]
  cases found with
  | none =>
    refine ⟨⟨0, 0⟩, rfl, le_rfl, Nat.zero_le _, fun i hi => ?_⟩
    rw [hcompare i hi]
    exact iff_of_false (hspec i hi) (fun h => absurd h.2 (Nat.not_lt_zero i))
  | some middle =>
    obtain ⟨hmiddle, heq⟩ := hspec
    obtain ⟨left, hleft, hfirst, hleftEq, hbefore⟩ := hsearch.first hmiddle heq
    have hmore : middle + 1 + (entries.length - 1 - middle) = entries.length := by omega
    obtain ⟨right, hright, hsize, hlast, hrightEq, hbehind⟩ := hsearch.last hmore heq
    simp only [hfirst, hlast, ok_bind]
    have hle : left ≤ right + 1 := by omega
    refine ⟨⟨left, right + 1⟩, rfl, hle, hsize, fun i hi => ?_⟩
    rw [hcompare i hi]
    constructor
    · intro hi'
      refine ⟨not_lt.1 fun hlt => hbefore i hlt hi', not_le.1 fun hle => hbehind i hle hi hi'⟩
    · rintro ⟨hge, hlt⟩
      exact hsearch.eq_of_between hge (Nat.le_of_lt_succ hlt) hsize hleftEq hrightEq

/-- The block of an entry that is at its offset. -/
theorem readBlock_spec {i : Nat} (hi : i < entries.length) {type : ILUInt32} {info : List ILUInt8}
    (hinfo : info.length < 2 ^ 32) (hat : At data (encodeBlock type info) 24 entries[i].2) :
    ∃ post, readBlock dbg i = .ok (some ⟨type, BitVec.ofNat 32 info.length, info ++ post⟩) := by
  have hlength := @length_sectionBytes data strings pad entries
  obtain ⟨front, post, hsection, hfront⟩ := @sectionBytes_eq data strings pad entries i hi
  obtain ⟨rest, hbase, hend, hdrop⟩ := hat.spec (by omega)
  have hread : ilReadUInt32 dbg.bytes (dbg.index + i * 8 + 4) = .ok entries[i].2 := by
    rw [hdbg.bytes_eq, hdbg.index_eq (by omega), hsection, ← List.append_assoc]
    apply ilReadUInt32_ilWriteUInt32
    rw [List.length_append, hfront, length_ilWriteUInt32]
  have hposn : dbg.bytes.drop entries[i].2.toNat =
      ilMetaCompressData type ++ (ilMetaCompressData (BitVec.ofNat 32 info.length) ++
        (info ++ (rest ++ (strings ++ (List.replicate pad 0 ++ entries.flatMap encodeEntry))))) := by
    rw [hdbg.bytes_eq, show entries[i].2.toNat = 24 + (entries[i].2.toNat - 24) by omega,
      drop_sectionBytes, List.drop_append_of_le_length (by omega), hdrop, encodeBlock]
    simp only [List.append_assoc]
  refine ⟨rest ++ (strings ++ (List.replicate pad 0 ++ entries.flatMap encodeEntry)), ?_⟩
  have hpos : 0 < (encodeBlock type info).length := by
    have htype := (length_ilMetaCompressData type).1
    rw [encodeBlock, List.length_append]
    omega
  rw [readBlock, hread, ok_bind, if_neg]
  · rw [hposn, ilMetaUncompressData_compressData]
    dsimp only
    rw [ilMetaUncompressData_compressData]
    dsimp only
    rw [if_neg]
    rw [BitVec.toNat_ofNat, Nat.mod_eq_of_lt hinfo, List.length_append]
    simp
  · rw [hdbg.bytes_eq, hlength]
    omega

/-- A string that is at its offset. -/
theorem ilDebugGetString_spec {str : CString} {offset : ILUInt32}
    (hat : At strings str.bytes 0 offset) :
    (ilDebugGetString dbg offset).map (List.takeWhile (· ≠ 0)) = some str.chars := by
  have hlength := @length_sectionBytes data strings pad entries
  obtain ⟨rest, -, hend, hdrop⟩ := hat.spec (by omega)
  have hpos : 0 < str.bytes.length := by
    rw [CString.bytes, List.length_append, List.length_singleton]
    omega
  rw [Nat.sub_zero] at hdrop
  have hposn : dbg.bytes.drop (dbg.strings + offset.toNat) =
      str.chars ++ (0 :: (rest ++ (List.replicate pad 0 ++ entries.flatMap encodeEntry))) := by
    rw [hdbg.bytes_eq, hdbg.strings_eq, Nat.add_assoc, drop_sectionBytes,
      List.drop_length_add_append, List.drop_append_of_le_length (by omega), hdrop, CString.bytes]
    simp only [List.append_assoc, List.cons_append, List.nil_append]
  rw [ilDebugGetString, hdbg.stringsLen_eq, if_pos (by omega), Option.map_some, hposn,
    List.takeWhile_append_of_pos]
  · simp
  · intro ch hch
    rw [decide_eq_true_eq]
    rintro rfl
    exact str.no_zero hch

end Section

/-! ### Iterators -/

/-- The type, the length and the bytes of a block. -/
def ILDebugBlock.contents (block : ILDebugBlock) : ILUInt32 × ILUInt32 × List ILUInt8 :=
  (block.type, block.length, block.data.take block.length.toNat)

/-- The same of a block that was added. -/
def addedContents (block : ILToken × ILUInt32 × List ILUInt8) : ILUInt32 × ILUInt32 × List ILUInt8 :=
  (block.2.1, BitVec.ofNat 32 block.2.2.length, block.2.2)

/-- An iterator over entries that all have a block. -/
theorem exists_yields {dbg : ILDebugContext} {added : List (ILToken × ILUInt32 × List ILUInt8)}
    (hread : ∀ i (hi : i < added.length), ∃ block, readBlock dbg i = .ok (some block) ∧
      block.contents = addedContents added[i])
    {count reserved1 : Nat} (hcount : reserved1 + count ≤ added.length) :
    ∃ blocks, Yields dbg ⟨reserved1, reserved1 + count⟩ blocks ∧
      blocks.map ILDebugBlock.contents =
        ((added.drop reserved1).take count).map addedContents := by
  induction count generalizing reserved1 with
  | zero =>
    refine ⟨[], .done ?_, by simp⟩
    rw [ilDebugIterNext, Nat.add_zero, Nat.sub_self, nextBlock, ok_bind, Option.map_none]
  | succ count ih =>
    obtain ⟨block, hblock, hcontents⟩ := hread reserved1 (by omega)
    have hnext : reserved1 + 1 + count = reserved1 + (count + 1) := by omega
    obtain ⟨blocks, hyields, hmap⟩ := ih (hnext.trans_le hcount)
    rw [hnext] at hyields
    refine ⟨block :: blocks, .next ?_ hyields, ?_⟩
    · rw [ilDebugIterNext, Nat.add_sub_cancel_left, nextBlock, hblock]
      rfl
    · rw [List.drop_eq_getElem_cons (by omega), List.take_succ_cons, List.map_cons, List.map_cons,
        hcontents, hmap]

/-! ### Round trip -/

theorem stringTable_spec (h : Inv tokenOf writer blocks) :
    BufferSound (stringTable writer) ∧
      (stringTable writer).chunks.contents.getLast? = some 0 ∧
      ∀ item ∈ writer.debugHash,
        At (stringTable writer).chunks.contents (item.name ++ [0]) 0 item.offset := by
  unfold stringTable
  split_ifs with hempty
  · obtain ⟨hsound, hcontents⟩ := h.strings.add (show [(0 : ILUInt8)].length < 2 ^ 32 by decide)
    refine ⟨hsound, ?_, fun item hitem => ?_⟩
    · exact (congrArg List.getLast? hcontents).trans List.getLast?_concat
    · exact hcontents ▸ (h.hash item hitem).append [0]
  · refine ⟨h.strings, h.terminated.resolve_left fun hnil => hempty ?_, h.hash⟩
    rw [h.strings.offset_eq, hnil]
    rfl

theorem ilWriteDebug_eq (h : Inv tokenOf writer blocks) {index : List (ILDebugToken I)}
    (hlength : index.length = writer.debugTokens.length) :
    ∃ pad, ilWriteDebug tokenOf writer index =
      sectionBytes writer.debugData.chunks.contents (stringTable writer).chunks.contents pad
        (index.map fun entry => (entry.token tokenOf, entry.offset)) := by
  obtain ⟨hstrings, -, -⟩ := stringTable_spec h
  refine ⟨adjust (debugHeaderSize + writer.debugData.offset + (stringTable writer).offset), ?_⟩
  simp only [ilWriteDebug, sectionBytes, h.data.wellFormed.flatten_pieces,
    hstrings.wellFormed.flatten_pieces, h.data.offset_eq, hstrings.offset_eq, BitVec.ofNat_add,
    List.length_map, hlength, List.flatMap_map, encodeEntry, List.append_assoc]
  rfl

/-- Iterating over a token gives the blocks that were added for it, and each string is found at
the offset that was returned for it. -/
theorem ilDebugCreate_ilWriteDebug (tokenOf : I → ILToken) (calls : List (Call I))
    (index : List (ILDebugToken I)) (hcalls : ∀ call ∈ calls, call.InRange)
    (hindex : SortedIndex tokenOf (calls.foldl Call.run {}).debugTokens index)
    (hsmall : (ilWriteDebug tokenOf (calls.foldl Call.run {}) index).length < 2 ^ 32) :
    ∃ dbg, ilDebugCreate (ilWriteDebug tokenOf (calls.foldl Call.run {}) index) = .ok dbg ∧
      (∀ token, ∃ iter blocks, ilDebugIterInit dbg token = .ok iter ∧ Yields dbg iter blocks ∧
        (blocks.map ILDebugBlock.contents).Perm
          (((calls.filterMap (Call.block tokenOf)).filter fun block => block.1 = token).map
            addedContents)) ∧
      ∀ result ∈ returned ({} : ILWriter I) calls,
        (ilDebugGetString dbg result.2).map (List.takeWhile (· ≠ 0)) = some result.1.chars := by
  obtain ⟨hinv, -, hreturned⟩ := (@inv_start I tokenOf).runAll hcalls
  rw [List.nil_append] at hinv
  generalize calls.foldl Call.run {} = writer at *
  generalize calls.filterMap (Call.block tokenOf) = added at hinv ⊢
  obtain ⟨pad, hsection⟩ := ilWriteDebug_eq hinv hindex.perm.length_eq
  obtain ⟨-, hterminated, hhash⟩ := stringTable_spec hinv
  rw [hsection] at hsmall ⊢
  obtain ⟨dbg, hcreate, hdbg⟩ := exists_ilDebugCreate hsmall hterminated
  refine ⟨dbg, hcreate, fun token => ?_, fun result hresult => ?_⟩
  · -- the blocks in the order of the index
    obtain ⟨sorted, hrecorded, hperm⟩ := List.perm_comp_forall₂ hindex.perm hinv.tokens
    have hlength := hrecorded.length_eq
    have hentries : (index.map fun entry => (entry.token tokenOf, entry.offset)).Pairwise
        fun x y => x.1.toNat ≤ y.1.toNat := List.pairwise_map.2 hindex.sorted
    obtain ⟨iter, hiter, hle, hend, hinterval⟩ := exists_ilDebugIterInit hsmall hdbg hentries token
    rw [List.length_map] at hend
    have hat (i : Nat) (hi : i < index.length) (hi' : i < sorted.length) :
        Recorded tokenOf writer.debugData.chunks.contents index[i] sorted[i] :=
      hrecorded.get hi hi'
    have hread (i : Nat) (hi : i < sorted.length) : ∃ block, readBlock dbg i = .ok (some block) ∧
        block.contents = addedContents sorted[i] := by
      have hi' : i < index.length := hi.trans_eq hlength.symm
      have hinfo := (hat i hi' hi).length_lt
      have hentry : i < (index.map fun entry => (entry.token tokenOf, entry.offset)).length := by
        rwa [List.length_map]
      obtain ⟨post, hblock⟩ := readBlock_spec hsmall hdbg hentry hinfo
        (by rw [List.getElem_map]; exact (hat i hi' hi).at_offset)
      refine ⟨_, hblock, ?_⟩
      simp only [ILDebugBlock.contents, addedContents, BitVec.toNat_ofNat, Nat.mod_eq_of_lt hinfo,
        List.take_left]
    obtain ⟨blocks, hyields, hmap⟩ := exists_yields hread
      (show iter.reserved1 + (iter.reserved2 - iter.reserved1) ≤ sorted.length by omega)
    rw [Nat.add_sub_cancel' hle] at hyields
    refine ⟨iter, blocks, hiter, hyields, ?_⟩
    have hfilter : sorted.filter (fun block => block.1 = token) =
        (sorted.drop iter.reserved1).take (iter.reserved2 - iter.reserved1) := by
      apply SortedSearch.filter_eq_slice hle (by omega)
      intro i hi
      have hi' : i < index.length := hi.trans_eq hlength.symm
      have hiff := hinterval i (by rwa [List.length_map])
      rw [List.getElem_map, (hat i hi' hi).token_eq] at hiff
      rw [decide_eq_true_eq, hiff]
    rw [hmap, ← hfilter]
    exact (hperm.filter _).map _
  · have hat := hhash _ (hreturned result hresult)
    exact ilDebugGetString_spec hsmall hdbg hat

/-- A string, two blocks of one pseudo token, and a block of an item. -/
def fewCalls : List (Call Unit) :=
  [.string ⟨[0x61, 0x62], by decide⟩, .addPseudo 3 1 [5, 6], .addPseudo 3 2 [], .add () 1 [7]]

theorem ilDebugCreate_fewCalls :
    ∃ dbg, ilDebugCreate (ilWriteDebug (fun _ => 9) (fewCalls.foldl Call.run {})
        (fewCalls.foldl Call.run {}).debugTokens) = .ok dbg ∧
      (∀ token, ∃ iter blocks, ilDebugIterInit dbg token = .ok iter ∧ Yields dbg iter blocks ∧
        (blocks.map ILDebugBlock.contents).Perm
          (((fewCalls.filterMap (Call.block fun _ => 9)).filter fun block => block.1 = token).map
            addedContents)) ∧
      ∀ result ∈ returned ({} : ILWriter Unit) fewCalls,
        (ilDebugGetString dbg result.2).map (List.takeWhile (· ≠ 0)) = some result.1.chars :=
  ilDebugCreate_ilWriteDebug (fun _ => 9) fewCalls _
    (by simp [fewCalls, Call.InRange, CString.bytes]) ⟨.rfl, by decide⟩ (by decide)

/-! ### Strings that are too long -/

/-- The length of a string is taken modulo 2^32, so that nothing may be left of it. -/
theorem ilWriterDebugString_wraps {str : CString} (h : str.bytes.length = 2 ^ 32) :
    ilWriterDebugString ({} : ILWriter I) str = (0, { debugHash := [⟨str.chars, 0⟩] }) := by
  have hsize : BitVec.ofNat 32 str.bytes.length = 0 := by
    rw [h]
    rfl
  simp only [ilWriterDebugString, hsize]
  rfl

/-- The reader finds an empty string in place of such a string. -/
theorem ilDebugGetString_wraps {str : CString} (h : str.bytes.length = 2 ^ 32) :
    ∃ dbg, ilDebugCreate (ilWriteDebug (fun _ : Unit => 9)
        ([Call.string str].foldl Call.run {}) []) = .ok dbg ∧
      returned ({} : ILWriter Unit) [.string str] = [(str, 0)] ∧
      (ilDebugGetString dbg 0).map (List.takeWhile (· ≠ 0)) ≠ some str.chars := by
  have hrun : [Call.string str].foldl Call.run ({} : ILWriter Unit) =
      { debugHash := [⟨str.chars, 0⟩] } :=
    congrArg Prod.snd (ilWriterDebugString_wraps h)
  refine ⟨⟨ilWriteDebug (fun _ : Unit => 9) {} [], 0, 0, 24, 1⟩, ?_, ?_, ?_⟩
  · have hwrite : ilWriteDebug (fun _ : Unit => 9) { debugHash := [⟨str.chars, 0⟩] } [] =
        ilWriteDebug (fun _ : Unit => 9) {} [] := rfl
    rw [hrun, hwrite]
    rfl
  · simp only [returned, Call.returned, ilWriterDebugString_wraps h, List.append_nil]
  · intro heq
    have hempty : some [] = some str.chars := heq
    rw [CString.bytes, ← Option.some.inj hempty] at h
    exact absurd h (by decide)

/-- A string of `n` letters. -/
def letters (n : Nat) : CString where
  chars := List.replicate n 0x61
  no_zero hmem := absurd (List.eq_of_mem_replicate hmem) (by decide)

theorem length_letters (n : Nat) : (letters n).bytes.length = n + 1 := by
  simp [letters, CString.bytes]

theorem not_ilDebugGetString_longString :
    ∃ dbg, ilDebugCreate (ilWriteDebug (fun _ : Unit => 9)
        ([Call.string (letters (2 ^ 32 - 1))].foldl Call.run {}) []) = .ok dbg ∧
      returned ({} : ILWriter Unit) [.string (letters (2 ^ 32 - 1))] = [(letters (2 ^ 32 - 1), 0)] ∧
      (ilDebugGetString dbg 0).map (List.takeWhile (· ≠ 0)) ≠ some (letters (2 ^ 32 - 1)).chars :=
  ilDebugGetString_wraps ((length_letters _).trans (Nat.sub_add_cancel (by decide)))

end Pnet.Image.Debug
