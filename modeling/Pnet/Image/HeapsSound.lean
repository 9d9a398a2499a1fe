import Pnet.Image.Heaps
import Pnet.Image.CompressSound
import Pnet.Lib.BlockChain

/-! What is added to a heap stays where it is put, and the readers find it there. -/
namespace Pnet.Image.Heaps
open Pnet.Lib Pnet.Support

def datas (list : List ILStringBlock) : List (List ILUInt8) := list.map (·.data)

/-- The counters of a block are those of its bytes. -/
structure Fine (list : List ILStringBlock) : Prop where
  used : ∀ block ∈ list, block.used.toNat = block.data.length
  room : ∀ block ∈ list, block.data.length ≤ block.len.toNat
  pos : ∀ block ∈ list, 0 < block.data.length

theorem fine_nil : Fine [] :=
  ⟨fun _ h => absurd h List.not_mem_nil, fun _ h => absurd h List.not_mem_nil,
    fun _ h => absurd h List.not_mem_nil⟩

theorem fine_cons {block : ILStringBlock} {list : List ILStringBlock} :
    Fine (block :: list) ↔ (block.used.toNat = block.data.length ∧
      block.data.length ≤ block.len.toNat ∧ 0 < block.data.length) ∧ Fine list := by
  constructor
  · intro h
    exact ⟨⟨h.used _ List.mem_cons_self, h.room _ List.mem_cons_self, h.pos _ List.mem_cons_self⟩,
      fun b hb => h.used b (List.mem_cons_of_mem _ hb),
      fun b hb => h.room b (List.mem_cons_of_mem _ hb),
      fun b hb => h.pos b (List.mem_cons_of_mem _ hb)⟩
  · rintro ⟨⟨hused, hroom, hpos⟩, h⟩
    exact ⟨List.forall_mem_cons.2 ⟨hused, h.used⟩, List.forall_mem_cons.2 ⟨hroom, h.room⟩,
      List.forall_mem_cons.2 ⟨hpos, h.pos⟩⟩

theorem size_datas_cons (block : ILStringBlock) (list : List ILStringBlock) :
    BlockChain.size (datas (block :: list)) = block.data.length + BlockChain.size (datas list) := by
  rw [datas, List.map_cons, ← List.singleton_append, BlockChain.size_append,
    BlockChain.size_singleton, ← datas]

theorem le_blockLength (blockLen : ILUInt32) : blockLen.toNat ≤ (blockLength blockLen).toNat := by
  unfold blockLength
  split_ifs with h
  · exact (show blockLen.toNat < ilNormalBlockSize.toNat from h).le
  · exact le_rfl

/-! ### Adding -/

/-- The outcome of an addition: the content is behind all that was there. -/
structure Added (list list' : List ILStringBlock) (offset i posn : Nat)
    (content : List ILUInt8) : Prop where
  fine : Fine list'
  grows : BlockChain.Grows (datas list) (datas list')
  found : BlockChain.find (datas list') offset = some (i, posn, content)
  size : BlockChain.size (datas list') = offset + content.length

theorem addBehind_spec {content : List ILUInt8} (hne : 0 < content.length)
    {last : ILStringBlock} {rest : List ILStringBlock} (h : Fine (last :: rest))
    {fullLen offset : ILUInt32} (hfull : fullLen.toNat = content.length)
    (hroom : offset.toNat + BlockChain.size (datas (last :: rest)) + content.length < 2 ^ 32) :
    let r := addBehind fullLen content offset last rest
    r.2.1.toNat = offset.toNat + BlockChain.size (datas (last :: rest)) ∧
      Added (last :: rest) r.1 (BlockChain.size (datas (last :: rest))) r.2.2.1 r.2.2.2 content := by
  induction rest generalizing last offset with
  | nil =>
    obtain ⟨⟨hused, hlen, hpos⟩, _⟩ := fine_cons.1 h
    have hsize : BlockChain.size (datas [last]) = last.data.length := BlockChain.size_singleton _
    rw [hsize] at hroom ⊢
    have hoffset : (offset + last.used).toNat = offset.toNat + last.data.length := by
      rw [BitVec.toNat_add, hused, Nat.mod_eq_of_lt (by omega)]
    unfold addBehind
    by_cases hfits : fullLen ≤ last.len - last.used
    · rw [if_pos hfits]
      have hleft : (last.len - last.used).toNat = last.len.toNat - last.data.length := by
        rw [BitVec.toNat_sub_of_le (by rw [BitVec.le_def, hused]; exact hlen), hused]
      rw [BitVec.le_def, hfull, hleft] at hfits
      have hused' : (last.used + fullLen).toNat = (last.data ++ content).length := by
        rw [BitVec.toNat_add, hused, hfull, List.length_append, Nat.mod_eq_of_lt (by omega)]
      refine ⟨hoffset, fine_cons.2 ⟨⟨hused', ?_, ?_⟩, fine_nil⟩, .last [] last.data content, ?_, ?_⟩
      · rw [List.length_append]
        have := last.len.isLt
        dsimp only
        omega
      · rw [List.length_append]
        omega
      · show BlockChain.find [last.data ++ content] last.data.length = _
        rw [BlockChain.find_head (by rw [List.length_append]; omega), List.drop_left]
      · exact (BlockChain.size_singleton _).trans List.length_append
    · rw [if_neg hfits]
      refine ⟨hoffset, fine_cons.2 ⟨⟨hused, hlen, hpos⟩, fine_cons.2 ⟨⟨hfull, ?_, hne⟩, fine_nil⟩⟩,
        .behind [last.data] [content], ?_, ?_⟩
      · exact hfull.symm.trans_le (le_blockLength fullLen)
      · show BlockChain.find [last.data, content] (last.data.length + 0) = _
        rw [BlockChain.find_cons_append, BlockChain.find_head hne]
        rfl
      · show BlockChain.size [last.data, content] = _
        simp [BlockChain.size]
  | cons next rest ih =>
    obtain ⟨hlast, hrest⟩ := fine_cons.1 h
    rw [size_datas_cons] at hroom ⊢
    have hoffset : (offset + last.used).toNat = offset.toNat + last.data.length := by
      rw [BitVec.toNat_add, hlast.1, Nat.mod_eq_of_lt (by omega)]
    have hsum : (offset + last.used).toNat + BlockChain.size (datas (next :: rest)) +
        content.length < 2 ^ 32 := by
      rw [hoffset]
      omega
    obtain ⟨hout, hadded⟩ := ih hrest hsum
    unfold addBehind
    refine ⟨?_, fine_cons.2 ⟨hlast, hadded.fine⟩, hadded.grows.cons last.data, ?_, ?_⟩
    · exact hout.trans (by rw [hoffset]; omega)
    · show BlockChain.find (last.data :: datas _) _ = _
      rw [BlockChain.find_cons_append, hadded.found]
      rfl
    · rw [size_datas_cons, hadded.size]
      omega

theorem addString_spec {list : List ILStringBlock} {str header : List ILUInt8}
    (hne : 0 < (header ++ str).length) (h : Fine list)
    (hroom : BlockChain.size (datas list) + (header ++ str).length + 1 < 2 ^ 32) :
    let r := addString list str header
    r.2.1 ≠ 0 ∧ r.2.1.toNat ≤ BlockChain.size (datas list) + 1 ∧
      Added list r.1 r.2.1.toNat r.2.2.1 r.2.2.2 (header ++ str) := by
  have hcomm : str.length + header.length = (header ++ str).length := by
    rw [List.length_append, Nat.add_comm]
  have hfull : (BitVec.ofNat 32 (str.length + header.length)).toNat = (header ++ str).length := by
    rw [BitVec.toNat_ofNat, hcomm, Nat.mod_eq_of_lt (by omega)]
  unfold addString
  cases list with
  | nil =>
    have hfull' : (BitVec.ofNat 32 (str.length + header.length) + 1).toNat =
        (header ++ str).length + 1 := by
      rw [BitVec.toNat_add, hfull]
      exact Nat.mod_eq_of_lt (by rw [show (1 : ILUInt32).toNat = 1 from rfl]; omega)
    refine ⟨show (0 + 1 : ILUInt32) ≠ 0 by decide, Nat.le_add_left 1 _,
      fine_cons.2 ⟨⟨hfull', ?_, Nat.zero_lt_succ _⟩, fine_nil⟩, .behind [] _, ?_, ?_⟩
    · exact (hfull'.symm.trans_le (le_blockLength _))
    · exact BlockChain.find_head (by rw [List.length_cons]; exact Nat.succ_lt_succ hne) []
    · show BlockChain.size [0 :: (header ++ str)] = 1 + _
      rw [BlockChain.size_singleton, List.length_cons, Nat.add_comm]
  | cons last rest =>
    have hsum : (0 : ILUInt32).toNat + BlockChain.size (datas (last :: rest)) +
        (header ++ str).length < 2 ^ 32 := by
      rw [show (0 : ILUInt32).toNat = 0 from rfl]
      omega
    obtain ⟨hoffset, hadded⟩ := addBehind_spec hne h hfull hsum
    have hpos := (fine_cons.1 h).1.2.2
    rw [show (0 : ILUInt32).toNat = 0 from rfl, Nat.zero_add] at hoffset
    refine ⟨fun hzero => ?_, hoffset.trans_le (Nat.le_succ _), ?_⟩
    · have hzero' := congrArg BitVec.toNat hzero
      rw [size_datas_cons] at hoffset
      rw [show (0 : ILUInt32).toNat = 0 from rfl] at hzero'
      dsimp only at hzero' hoffset
      omega
    · dsimp only at hoffset ⊢
      rw [hoffset]
      exact hadded

/-! ### Reading -/

theorem findBlock_eq {list : List ILStringBlock} (h : Fine list) (offset : ILUInt32) :
    findBlock list offset = (BlockChain.find (datas list) offset.toNat).map
      fun found => (found.2.2, BitVec.ofNat 32 found.2.1) := by
  induction list generalizing offset with
  | nil => rfl
  | cons block rest ih =>
    obtain ⟨⟨hused, _, _⟩, hrest⟩ := fine_cons.1 h
    unfold findBlock
    show _ = (BlockChain.find (block.data :: datas rest) _).map _
    by_cases hbehind : block.used ≤ offset
    · rw [if_pos hbehind, ih hrest]
      rw [BitVec.le_def, hused] at hbehind
      have hsub : (offset - block.used).toNat = offset.toNat - block.data.length := by
        rw [BitVec.toNat_sub_of_le (by rw [BitVec.le_def, hused]; exact hbehind), hused]
      rw [BlockChain.find, if_pos hbehind, hsub, Option.map_map]
      rfl
    · rw [if_neg hbehind]
      rw [BitVec.le_def, hused, not_le] at hbehind
      rw [BlockChain.find_head hbehind, Option.map_some, BitVec.ofNat_toNat, BitVec.setWidth_eq]

/-! ### The hash table -/

/-- An entry, with the content that it stands for. -/
structure Item where
  entry : ILStringHash
  content : List ILUInt8

/-- The bucket of a content: the terminating zero of a string does not count. -/
def keyOf (heap : Heap) (content : List ILUInt8) : ILUInt64 :=
  bucket (ilHashString 0 (if heap = .strings then content.dropLast else content))

/-- What the entry notes of the length: of a blob, that of the blob without its header. -/
def Noted (heap : Heap) (content : List ILUInt8) (len : ILUInt32) : Prop :=
  if heap = .blobs then
    ∃ blob : List ILUInt8, content = ilMetaCompressData (BitVec.ofNat 32 blob.length) ++ blob ∧
      len = BitVec.ofNat 32 blob.length
  else len = BitVec.ofNat 32 content.length

structure Inv (b : ILImageBuilder) (items : List Item) : Prop where
  table : ∀ key, b.hashTable key = (items.filter fun item =>
    keyOf item.entry.heap item.content = key).map (·.entry)
  fine : ∀ heap, Fine (b.blocks heap)
  poolSize : ∀ heap, (b.poolSize heap).toNat = BlockChain.size (datas (b.blocks heap))
  stored : ∀ item ∈ items, ∃ more, BlockChain.find (datas (b.blocks item.entry.heap))
    item.entry.offset.toNat =
      some (item.entry.value.1, item.entry.value.2, item.content ++ more)
  noted : ∀ item ∈ items, ∃ len, Noted item.entry.heap item.content len ∧
    item.entry.len = len ||| item.entry.heap.type
  small : ∀ item ∈ items, 0 < item.content.length ∧ item.content.length < 2 ^ 30
  offset : ∀ item ∈ items, item.entry.offset ≠ 0

variable {b : ILImageBuilder} {items : List Item} {item : Item}

theorem inv_create : Inv ilImageCreate [] :=
  ⟨fun _ => rfl, fun _ => fine_nil, fun _ => rfl, fun _ h => absurd h List.not_mem_nil,
    fun _ h => absurd h List.not_mem_nil, fun _ h => absurd h List.not_mem_nil,
    fun _ h => absurd h List.not_mem_nil⟩

theorem Inv.value (h : Inv b items) (hitem : item ∈ items) :
    ∃ more, b.value item.entry = item.content ++ more := by
  obtain ⟨more, hfind⟩ := h.stored item hitem
  obtain ⟨data, hblock, hdata, _⟩ := BlockChain.find_block hfind
  rw [datas, List.getElem?_map] at hblock
  obtain ⟨block, hget, rfl⟩ := Option.map_eq_some_iff.1 hblock
  refine ⟨more, ?_⟩
  unfold ILImageBuilder.value
  rw [hget, hdata]

/-- The word of a length and a kind tells both. -/
theorem toNat_word {n : Nat} (hn : n < 2 ^ 30) (heap : Heap) :
    (BitVec.ofNat 32 n ||| heap.type).toNat = n + heap.type.toNat := by
  have hlen : (BitVec.ofNat 32 n).toNat = n := by
    rw [BitVec.toNat_ofNat, Nat.mod_eq_of_lt (by omega)]
  have htag : heap.type.toNat % 2 ^ 30 = 0 := by cases heap <;> rfl
  rw [Bits.toNat_or_tag _ _ 30 (by rw [hlen]; exact hn) htag, hlen]

theorem word_inj {n n' : Nat} (hn : n < 2 ^ 30) (hn' : n' < 2 ^ 30) {heap heap' : Heap}
    (h : (BitVec.ofNat 32 n ||| heap.type : ILUInt32) = BitVec.ofNat 32 n' ||| heap'.type) :
    n = n' ∧ heap = heap' := by
  have hnat := congrArg BitVec.toNat h
  rw [toNat_word hn, toNat_word hn'] at hnat
  have hstrings : Heap.strings.type.toNat = 0 := rfl
  have hblobs : Heap.blobs.type.toNat = 2 ^ 31 := rfl
  have huser : Heap.userStrings.type.toNat = 2 ^ 30 := rfl
  cases heap <;> cases heap' <;> refine ⟨by omega, ?_⟩ <;> first | rfl | omega

/-- What `LookupHash` asks of an entry. -/
def Matches (b : ILImageBuilder) (str header : List ILUInt8) (type : ILUInt32)
    (entry : ILStringHash) : Prop :=
  entry.len = (BitVec.ofNat 32 (str.length + header.length) ||| type) ∧
    (b.value entry).take header.length = header ∧
    ((b.value entry).drop header.length).take str.length = str

/-- Header and string are the first bytes there. -/
theorem take_header_iff {value str header : List ILUInt8} :
    (value.take header.length = header ∧ (value.drop header.length).take str.length = str) ↔
      header ++ str <+: value := by
  constructor
  · rintro ⟨hheader, hstr⟩
    rw [List.prefix_iff_eq_take, List.length_append, List.take_add, hheader, hstr]
  · rintro ⟨more, rfl⟩
    rw [List.append_assoc, List.take_left, List.drop_left, List.take_left]
    exact ⟨rfl, rfl⟩

theorem Inv.matches_self (h : Inv b items) (hitem : item ∈ items) {str header : List ILUInt8}
    (hcontent : item.content = header ++ str) (hheap : item.entry.heap ≠ .blobs) :
    Matches b str header item.entry.heap.type item.entry := by
  obtain ⟨len, hnoted, hlen⟩ := h.noted item hitem
  obtain ⟨more, hvalue⟩ := h.value hitem
  rw [Noted, if_neg hheap, hcontent, List.length_append, Nat.add_comm] at hnoted
  refine ⟨hlen.trans (by rw [hnoted]), take_header_iff.2 ?_⟩
  rw [hvalue, hcontent]
  exact List.prefix_append _ _

/-- A string that is found is the one that is looked for. -/
theorem Inv.eq_of_matches (h : Inv b items) (hitem : item ∈ items) {str header : List ILUInt8}
    {heap : Heap} (hheap : heap ≠ .blobs) (hsmall : (header ++ str).length < 2 ^ 30)
    (hmatches : Matches b str header heap.type item.entry) :
    item.entry.heap = heap ∧ item.content = header ++ str := by
  obtain ⟨hlen, hbytes⟩ := hmatches
  obtain ⟨len, hnoted, hentry⟩ := h.noted item hitem
  obtain ⟨more, hvalue⟩ := h.value hitem
  have hitemSmall := (h.small item hitem).2
  rw [Nat.add_comm, ← List.length_append] at hlen
  unfold Noted at hnoted
  split_ifs at hnoted with hblobs
  · obtain ⟨blob, hcontent, hnoted⟩ := hnoted
    have hblob : blob.length < 2 ^ 30 := by
      rw [hcontent, List.length_append] at hitemSmall
      omega
    rw [hentry, hnoted, hblobs] at hlen
    exact absurd (word_inj hblob hsmall hlen).2.symm hheap
  · rw [hentry, hnoted] at hlen
    obtain ⟨hlength, heq⟩ := word_inj hitemSmall hsmall hlen
    refine ⟨heq, ?_⟩
    have hstarts := take_header_iff.1 hbytes
    rw [hvalue] at hstarts
    exact ((List.prefix_of_prefix_length_le hstarts (List.prefix_append _ _)
      hlength.ge).eq_of_length hlength.symm).symm

/-- No blob is ever found: the entries note lengths without the header. -/
theorem Inv.not_matches_blob (h : Inv b items) (hitem : item ∈ items) {blob : List ILUInt8}
    (hsmall : (ilMetaCompressData (BitVec.ofNat 32 blob.length) ++ blob).length < 2 ^ 30) :
    ¬ Matches b blob (ilMetaCompressData (BitVec.ofNat 32 blob.length)) Heap.blobs.type
      item.entry := by
  rintro ⟨hlen, hbytes⟩
  obtain ⟨len, hnoted, hentry⟩ := h.noted item hitem
  obtain ⟨more, hvalue⟩ := h.value hitem
  have hitemSmall := (h.small item hitem).2
  rw [Nat.add_comm, ← List.length_append] at hlen
  unfold Noted at hnoted
  split_ifs at hnoted with hblobs
  · obtain ⟨blob', hcontent, hnoted⟩ := hnoted
    rw [hcontent, List.length_append] at hitemSmall
    rw [hentry, hnoted, hblobs] at hlen
    have hlength := (word_inj (show blob'.length < 2 ^ 30 by omega) hsmall hlen).1
    obtain ⟨rest, hstarts⟩ := take_header_iff.1 hbytes
    rw [hvalue, hcontent, List.append_assoc, List.append_assoc] at hstarts
    -- both headers are read back from the same bytes
    have hread := ilMetaUncompressData_compressData (BitVec.ofNat 32 blob.length) (blob ++ rest)
    rw [hstarts, ilMetaUncompressData_compressData] at hread
    have heq := congrArg (fun r => r.1.toNat) hread
    have hpos := (length_ilMetaCompressData (BitVec.ofNat 32 blob.length)).1
    rw [List.length_append] at hlength hsmall
    simp only [BitVec.toNat_ofNat] at heq
    rw [Nat.mod_eq_of_lt (by omega), Nat.mod_eq_of_lt (by omega)] at heq
    omega
  · rw [hentry, hnoted] at hlen
    exact hblobs (word_inj hitemSmall hsmall hlen).2

/-! ### One addition -/

/-- Equal contents of one heap have one offset. -/
def Distinct (items : List Item) : Prop :=
  ∀ item ∈ items, ∀ item' ∈ items, item.entry.heap = item'.entry.heap →
    item.content = item'.content → item.entry.offset = item'.entry.offset

/-- An addition that gave an offset. -/
structure Adds (items : List Item) (heap : Heap) (content : List ILUInt8) (b' : ILImageBuilder)
    (offset : ILUInt32) (items' : List Item) : Prop where
  inv : Inv b' items'
  old : ∀ item ∈ items, item ∈ items'
  only : ∀ item ∈ items', item ∈ items ∨ item.entry.heap = heap ∧ item.content = content
  new : ∃ item ∈ items', item.entry.heap = heap ∧ item.content = content ∧
    item.entry.offset = offset
  distinct : (heap = .blobs → ∀ item ∈ items, item.entry.heap = .blobs → item.content ≠ content) →
    Distinct items → Distinct items'

/-- The state after a content was put behind the others. -/
def appended (b : ILImageBuilder) (heap : Heap) (hash : ILUInt64) (entry : ILStringHash)
    (list : List ILStringBlock) (length : Nat) : ILImageBuilder where
  blocks := Function.update b.blocks heap list
  poolSize := Function.update b.poolSize heap (entry.offset + BitVec.ofNat 32 length)
  hashTable := Function.update b.hashTable hash (entry :: b.hashTable hash)

theorem Inv.appended (h : Inv b items) {heap : Heap} {list : List ILStringBlock}
    {content : List ILUInt8} {offset len : ILUInt32} {i posn : Nat}
    (hadded : Added (b.blocks heap) list offset.toNat i posn content)
    (hnoted : Noted heap content len)
    (hsmall : 0 < content.length ∧ content.length < 2 ^ 30)
    (hoffset : offset ≠ 0) (hroom : offset.toNat + content.length < 2 ^ 32) {length : Nat}
    (hlength : length = content.length) :
    Inv (appended b heap (keyOf heap content) ⟨heap, (i, posn), len ||| heap.type, offset⟩ list
      length) (⟨⟨heap, (i, posn), len ||| heap.type, offset⟩, content⟩ :: items) := by
  refine ⟨fun key => ?_, fun heap' => ?_, fun heap' => ?_, fun item hitem => ?_,
    fun item hitem => ?_, fun item hitem => ?_, List.forall_mem_cons.2 ⟨hoffset, h.offset⟩⟩
  · by_cases hkey : keyOf heap content = key
    · subst hkey
      simp only [Heaps.appended, Function.update_self, List.filter_cons, decide_true, if_true,
        List.map_cons, h.table]
    · simp only [Heaps.appended, Function.update_of_ne (Ne.symm hkey), List.filter_cons, hkey,
        decide_false, Bool.false_eq_true, if_false, h.table]
  · by_cases hheap : heap' = heap
    · subst hheap
      simp only [Heaps.appended, Function.update_self]
      exact hadded.fine
    · simp only [Heaps.appended, Function.update_of_ne hheap]
      exact h.fine heap'
  · by_cases hheap : heap' = heap
    · subst hheap
      simp only [Heaps.appended, Function.update_self]
      rw [hadded.size, BitVec.toNat_add, BitVec.toNat_ofNat, hlength,
        Nat.mod_eq_of_lt (show content.length < 2 ^ 32 by omega), Nat.mod_eq_of_lt hroom]
    · simp only [Heaps.appended, Function.update_of_ne hheap]
      exact h.poolSize heap'
  · rcases List.mem_cons.1 hitem with rfl | hitem
    · refine ⟨[], ?_⟩
      simp only [Heaps.appended, Function.update_self, List.append_nil]
      exact hadded.found
    · obtain ⟨more, hfind⟩ := h.stored item hitem
      by_cases hheap : item.entry.heap = heap
      · simp only [Heaps.appended, hheap, Function.update_self]
        rw [hheap] at hfind
        obtain ⟨more', hfind'⟩ := hadded.grows.find hfind
        exact ⟨more ++ more', by rw [hfind', List.append_assoc]⟩
      · simp only [Heaps.appended, Function.update_of_ne hheap]
        exact ⟨more, hfind⟩
  · rcases List.mem_cons.1 hitem with rfl | hitem
    · exact ⟨len, hnoted, rfl⟩
    · exact h.noted item hitem
  · rcases List.mem_cons.1 hitem with rfl | hitem
    · exact hsmall
    · exact h.small item hitem

/-- The lookup of a content that is there, and of one that is not. -/
theorem Inv.lookupHash (h : Inv b items) {heap : Heap} {str header : List ILUInt8}
    (hsmall : (header ++ str).length < 2 ^ 30)
    (hblob : heap = .blobs → header = ilMetaCompressData (BitVec.ofNat 32 str.length)) :
    (∃ item ∈ items, item.entry.heap = heap ∧ item.content = header ++ str ∧
      lookupHash b str header heap.type (keyOf heap (header ++ str)) = some item.entry) ∨
    (lookupHash b str header heap.type (keyOf heap (header ++ str)) = none ∧
      (heap ≠ .blobs → ∀ item ∈ items, item.entry.heap = heap → item.content ≠ header ++ str)) := by
  cases hfind : Heaps.lookupHash b str header heap.type (keyOf heap (header ++ str)) with
  | some entry =>
    have hmatches : Matches b str header heap.type entry := by
      have hp := List.find?_some hfind
      rw [decide_eq_true_eq] at hp
      exact hp
    have hmem := List.mem_of_find?_eq_some hfind
    rw [h.table] at hmem
    obtain ⟨item, hitem, rfl⟩ := List.mem_map.1 hmem
    have hitem' := List.mem_of_mem_filter hitem
    by_cases hheap : heap = .blobs
    · rw [hblob hheap] at hsmall hmatches
      subst hheap
      exact absurd hmatches (h.not_matches_blob hitem' hsmall)
    · obtain ⟨heq, hcontent⟩ := h.eq_of_matches hitem' hheap hsmall hmatches
      exact .inl ⟨item, hitem', heq, hcontent, rfl⟩
  | none =>
    refine .inr ⟨rfl, fun hheap item hitem heq hcontent => ?_⟩
    subst heq
    have hmem : item.entry ∈ b.hashTable (keyOf item.entry.heap (header ++ str)) := by
      rw [h.table]
      refine List.mem_map_of_mem (List.mem_filter.2 ⟨hitem, ?_⟩)
      rw [hcontent, decide_eq_true_eq]
    have hno := List.find?_eq_none.1 hfind item.entry hmem
    rw [decide_eq_true_eq] at hno
    exact hno (h.matches_self hitem hcontent hheap)

theorem addContent_spec (h : Inv b items) {heap : Heap} {str header : List ILUInt8}
    {len : ILUInt32} (hnoted : Noted heap (header ++ str) len)
    (hblob : heap = .blobs → header = ilMetaCompressData (BitVec.ofNat 32 str.length))
    (hsmall : 0 < (header ++ str).length ∧ (header ++ str).length < 2 ^ 30)
    (hroom : (b.poolSize heap).toNat + (header ++ str).length + 1 < 2 ^ 32) :
    let r := addContent b heap (keyOf heap (header ++ str)) str header len
    ∃ items', Adds items heap (header ++ str) r.1 r.2 items' := by
  unfold addContent
  rcases h.lookupHash hsmall.2 hblob with ⟨item, hitem, hheap, hcontent, hlookup⟩ | ⟨hlookup, hno⟩
  · rw [hlookup]
    exact ⟨items, h, fun _ => id, fun _ => .inl, ⟨item, hitem, hheap, hcontent, rfl⟩, fun _ => id⟩
  · rw [hlookup]
    rw [h.poolSize] at hroom
    obtain ⟨hoffset, hle, hadded⟩ := addString_spec hsmall.1 (h.fine heap) hroom
    dsimp only
    rw [if_neg hoffset]
    have hinv := h.appended hadded hnoted hsmall hoffset (by omega) List.length_append.symm
    refine ⟨_, hinv, fun _ => List.mem_cons_of_mem _, fun item hitem => ?_,
      ⟨_, List.mem_cons_self, rfl, rfl, rfl⟩, fun hnew hdistinct => ?_⟩
    · rcases List.mem_cons.1 hitem with rfl | hitem
      · exact .inr ⟨rfl, rfl⟩
      · exact .inl hitem
    · have hfresh : ∀ item ∈ items, item.entry.heap = heap → item.content ≠ header ++ str := by
        intro item hitem hheap
        by_cases hblobs : heap = .blobs
        · exact hnew hblobs item hitem (hheap.trans hblobs)
        · exact hno hblobs item hitem hheap
      intro item hitem item' hitem' hheap hcontent
      rcases List.mem_cons.1 hitem with rfl | hitem
      · rcases List.mem_cons.1 hitem' with rfl | hitem'
        · rfl
        · exact absurd hcontent.symm (hfresh item' hitem' hheap.symm)
      · rcases List.mem_cons.1 hitem' with rfl | hitem'
        · exact absurd hcontent (hfresh item hitem hheap)
        · exact hdistinct item hitem item' hitem' hheap hcontent

end Pnet.Image.Heaps
