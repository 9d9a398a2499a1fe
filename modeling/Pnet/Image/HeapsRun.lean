import Pnet.Image.HeapsSound

/-! Additions to the heaps in any order, and what the offsets they gave are read back as. -/
namespace Pnet.Image.Heaps
open Pnet.Lib Pnet.Support

variable {b : ILImageBuilder} {items : List Item} {item : Item}

/-! ### Reading back -/

theorem Inv.find (h : Inv b items) (hitem : item ∈ items) :
    ∃ more posn, findBlock (b.blocks item.entry.heap) item.entry.offset =
        some (item.content ++ more, posn) ∧
      posn.toNat + (item.content ++ more).length ≤ (b.poolSize item.entry.heap).toNat ∧
      item.entry.offset < b.poolSize item.entry.heap := by
  obtain ⟨more, hfind⟩ := h.stored item hitem
  obtain ⟨hposn, hsize⟩ := BlockChain.find_le hfind
  have hlt := BlockChain.find_lt hfind
  rw [← h.poolSize] at hsize hlt
  refine ⟨more, BitVec.ofNat 32 item.entry.value.2, ?_, ?_, hlt⟩
  · rw [findBlock_eq (h.fine _), hfind]
    rfl
  · have hoffset := item.entry.offset.isLt
    rw [BitVec.toNat_ofNat, Nat.mod_eq_of_lt (by omega)]
    omega

/-- The length in front of a string is read, and the string is left. -/
theorem readLength_spec {len avail : ILUInt32} {str : List ILUInt8}
    (havail : (ilMetaCompressData len ++ str).length ≤ avail.toNat) :
    readLength (ilMetaCompressData len ++ str) avail =
      some (len, str, avail.toNat - (ilMetaCompressData len).length) := by
  unfold readLength
  rw [List.take_of_length_le havail, ← List.append_nil (ilMetaCompressData len ++ str),
    List.append_assoc, ilMetaUncompressData_compressData]
  simp

/-- Where the length stops, the string is all that fits. -/
theorem readLength_append {len avail : ILUInt32} {str more : List ILUInt8}
    (havail : (ilMetaCompressData len ++ str ++ more).length ≤ avail.toNat) :
    ∃ left, readLength (ilMetaCompressData len ++ str ++ more) avail =
      some (len, str ++ more, left) ∧ str.length ≤ left := by
  rw [List.append_assoc] at havail ⊢
  refine ⟨_, readLength_spec havail, ?_⟩
  rw [List.length_append, List.length_append] at havail
  omega

theorem Inv.getString (h : Inv b items) (hitem : item ∈ items)
    (hheap : item.entry.heap = .strings) :
    ∃ more, ilImageGetString b item.entry.offset = some (item.content ++ more) := by
  obtain ⟨more, posn, hfind, _, hlt⟩ := h.find hitem
  rw [hheap] at hfind hlt
  refine ⟨more, ?_⟩
  unfold ilImageGetString
  rw [if_pos hlt, hfind]
  rfl

/-- Where the walk along a heap comes to, and how much is left there. -/
theorem Inv.available (h : Inv b items) (hitem : item ∈ items) :
    ∃ more posn, findBlock (b.blocks item.entry.heap) item.entry.offset =
        some (item.content ++ more, posn) ∧
      (item.content ++ more).length ≤ (b.poolSize item.entry.heap - posn).toNat ∧
      ¬ (item.entry.offset = 0 ∨ b.poolSize item.entry.heap ≤ item.entry.offset) := by
  obtain ⟨more, posn, hfind, hsize, hlt⟩ := h.find hitem
  refine ⟨more, posn, hfind, ?_, not_or.2 ⟨h.offset item hitem, BitVec.not_le.2 hlt⟩⟩
  rw [BitVec.toNat_sub_of_le (by rw [BitVec.le_def]; omega)]
  omega

theorem Inv.getBlob (h : Inv b items) (hitem : item ∈ items) (hheap : item.entry.heap = .blobs)
    {blob : List ILUInt8}
    (hcontent : item.content = ilMetaCompressData (BitVec.ofNat 32 blob.length) ++ blob) :
    ∃ more len, ilImageGetBlob b item.entry.offset = some (blob ++ more, len) ∧
      len.toNat = blob.length := by
  obtain ⟨more, posn, hfind, havail, hin⟩ := h.available hitem
  have hsmall := (h.small item hitem).2
  rw [hheap] at hfind havail hin
  rw [hcontent] at hfind havail hsmall
  obtain ⟨left, hread, hleft⟩ := readLength_append havail
  have hlen : (BitVec.ofNat 32 blob.length).toNat = blob.length := by
    rw [List.length_append] at hsmall
    rw [BitVec.toNat_ofNat, Nat.mod_eq_of_lt (by omega)]
  refine ⟨more, BitVec.ofNat 32 blob.length, ?_, hlen⟩
  unfold ilImageGetBlob
  rw [if_neg hin, hfind]
  dsimp only [bind, pure, Option.bind_some]
  rw [hread]
  dsimp only [Option.bind_some]
  rw [if_neg (by rw [hlen]; omega)]

theorem length_unitBytes (units : List ILUInt16) : (unitBytes units).length = 2 * units.length := by
  induction units with
  | nil => rfl
  | cons unit units ih =>
    rw [unitBytes, List.flatMap_cons, List.length_append, ← unitBytes, ih, List.length_cons]
    simp
    omega

/-- The length of a user string is odd, and half of it are the characters. -/
theorem userLength {n : Nat} (hn : n * 2 + 1 < 2 ^ 32) :
    ¬ BitVec.ofNat 32 (n * 2 + 1) &&& 1 = 0 ∧ (BitVec.ofNat 32 (n * 2 + 1) / 2).toNat = n := by
  have hlen : (BitVec.ofNat 32 (n * 2 + 1)).toNat = n * 2 + 1 := by
    rw [BitVec.toNat_ofNat, Nat.mod_eq_of_lt hn]
  constructor
  · intro hzero
    have hbit := congrArg BitVec.toNat hzero
    rw [BitVec.toNat_and, hlen, show (1 : ILUInt32).toNat = 1 from rfl, Nat.and_one_is_mod] at hbit
    have hodd : (0 : ILUInt32).toNat = 0 := rfl
    omega
  · rw [BitVec.toNat_udiv, hlen, show (2 : ILUInt32).toNat = 2 from rfl]
    omega

theorem Inv.getUserString (h : Inv b items) (hitem : item ∈ items)
    (hheap : item.entry.heap = .userStrings) {units : List ILUInt16} {last : ILUInt8}
    (hcontent : item.content = ilMetaCompressData (BitVec.ofNat 32 (units.length * 2 + 1)) ++
      (unitBytes units ++ [last])) :
    ∃ more len, ilImageGetUserString b item.entry.offset =
        some (unitBytes units ++ [last] ++ more, len) ∧ len.toNat = units.length := by
  obtain ⟨more, posn, hfind, havail, hin⟩ := h.available hitem
  have hsmall := (h.small item hitem).2
  rw [hheap] at hfind havail hin
  rw [hcontent] at hfind havail hsmall
  obtain ⟨left, hread, hleft⟩ := readLength_append havail
  have hlength : (unitBytes units ++ [last]).length = units.length * 2 + 1 := by
    rw [List.length_append, length_unitBytes, List.length_singleton, Nat.mul_comm]
  rw [List.length_append] at hsmall
  obtain ⟨hodd, hhalf⟩ := userLength (show units.length * 2 + 1 < 2 ^ 32 by omega)
  refine ⟨more, _, ?_, hhalf⟩
  unfold ilImageGetUserString
  rw [if_neg hin, hfind]
  dsimp only [bind, pure, Option.bind_some]
  rw [hread]
  dsimp only [Option.bind_some]
  have hlen := BitVec.toNat_ofNat (units.length * 2 + 1) 32
  rw [Nat.mod_eq_of_lt (by omega)] at hlen
  rw [if_neg (not_or.2 ⟨hodd, by rw [hlen]; omega⟩)]

/-! ### The calls -/

/-- A call of one of the four functions. -/
inductive Add where
  | string (str : List ILUInt8) (hzero : 0 ∉ str)
  | blob (bytes : List ILUInt8)
  | userString (str : List ILUInt8)
  | encodedUserString (units : List ILUInt16) (last : ILUInt8)

namespace Add

def heap : Add → Heap
  | string _ _ => .strings
  | blob _ => .blobs
  | userString _ => .userStrings
  | encodedUserString _ _ => .userStrings

/-- What is added: user strings are their UTF-16 bytes, and one byte more. -/
def content : Add → List ILUInt8
  | string str _ => str ++ [0]
  | blob bytes => bytes
  | userString str => unitBytes ((utf8Chars str).flatMap ilUTF16WriteChar) ++ [0]
  | encodedUserString units last => unitBytes units ++ [last]

/-- The length that is put in front of it. -/
def header (add : Add) : List ILUInt8 :=
  if add.heap = .strings then [] else ilMetaCompressData (BitVec.ofNat 32 add.content.length)

def stored (add : Add) : List ILUInt8 := add.header ++ add.content

def run (b : ILImageBuilder) : Add → ILImageBuilder × ILUInt32
  | string str _ => ilImageAddString b str
  | blob bytes => ilImageAddBlob b bytes
  | userString str => ilImageAddUserString b str
  | encodedUserString units last => ilImageAddEncodedUserString b units last

/-- The offset gives the content and the length back. -/
def ReadsBack (b : ILImageBuilder) (offset : ILUInt32) : Add → Prop
  | string str _ => ∃ more, ilImageGetString b offset = some (str ++ [0] ++ more)
  | blob bytes => ∃ more len, ilImageGetBlob b offset = some (bytes ++ more, len) ∧
      len.toNat = bytes.length
  | userString str =>
    let units := (utf8Chars str).flatMap ilUTF16WriteChar
    ∃ more len, ilImageGetUserString b offset = some (unitBytes units ++ [0] ++ more, len) ∧
      len.toNat = units.length
  | encodedUserString units last =>
    ∃ more len, ilImageGetUserString b offset = some (unitBytes units ++ [last] ++ more, len) ∧
      len.toNat = units.length

end Add

theorem length_unitBytes_append (units : List ILUInt16) (last : ILUInt8) :
    (unitBytes units ++ [last]).length = units.length * 2 + 1 := by
  rw [List.length_append, length_unitBytes, List.length_singleton, Nat.mul_comm]

theorem ilHashString_append (start : ILUInt64) (left right : List ILUInt8) :
    ilHashString (ilHashString start left) right = ilHashString start (left ++ right) :=
  List.foldl_append.symm

theorem keyOf_strings (str : List ILUInt8) :
    keyOf .strings (str ++ [0]) = bucket (ilHashString 0 str) := by
  rw [keyOf, if_pos rfl, List.dropLast_concat]

theorem keyOf_of_ne {heap : Heap} (hheap : heap ≠ .strings) (header str : List ILUInt8) :
    keyOf heap (header ++ str) = bucket (ilHashString (ilHashString 0 header) str) := by
  rw [keyOf, if_neg hheap, ilHashString_append]

theorem header_of_ne {add : Add} (hheap : add.heap ≠ .strings) :
    add.header = ilMetaCompressData (BitVec.ofNat 32 add.content.length) :=
  if_neg hheap

theorem header_user {add : Add} (hheap : add.heap = .userStrings) {units : List ILUInt16}
    {last : ILUInt8} (hcontent : add.content = unitBytes units ++ [last]) :
    add.header = ilMetaCompressData (BitVec.ofNat 32 (units.length * 2 + 1)) := by
  rw [header_of_ne (by rw [hheap]; decide), hcontent, length_unitBytes_append]

/-- All four functions put the stored bytes behind the others, in two parts. -/
theorem run_eq (b : ILImageBuilder) (add : Add) : ∃ str header len,
    add.run b = addContent b add.heap (keyOf add.heap add.stored) str header len ∧
      header ++ str = add.stored ∧ Noted add.heap add.stored len ∧
      (add.heap = .blobs → header = ilMetaCompressData (BitVec.ofNat 32 str.length)) := by
  have hblobs : Heap.blobs ≠ .strings := by decide
  have huser : Heap.userStrings ≠ .strings := by decide
  have hstored : add.stored = add.header ++ add.content := rfl
  cases add with
  | string str hzero =>
    have hheader : (Add.string str hzero).header = [] := if_pos rfl
    rw [hheader, List.nil_append] at hstored
    rw [hstored]
    refine ⟨str ++ [0], [], BitVec.ofNat 32 (str.length + 1), ?_, rfl, ?_, fun h => nomatch h⟩
    · exact (congrArg (addContent b .strings · _ _ _) (keyOf_strings str)).symm
    · show _ = BitVec.ofNat 32 (str ++ [0]).length
      rw [List.length_append]
      rfl
  | blob bytes =>
    rw [header_of_ne (show (Add.blob bytes).heap ≠ .strings from hblobs)] at hstored
    rw [hstored]
    refine ⟨bytes, _, BitVec.ofNat 32 bytes.length, ?_, rfl, ⟨bytes, rfl, rfl⟩, fun _ => rfl⟩
    exact (congrArg (addContent b .blobs · _ _ _) (keyOf_of_ne hblobs _ bytes)).symm
  | userString str =>
    have hunits : ((utf8Chars str).map utf16CharLength).sum =
        ((utf8Chars str).flatMap ilUTF16WriteChar).length := by
      rw [← sum_map_length]
      exact congrArg List.sum (List.map_congr_left fun ch _ => (length_ilUTF16WriteChar ch).symm)
    rw [header_user rfl rfl] at hstored
    rw [hstored]
    refine ⟨_, [], _, ?_, rfl, rfl, fun h => nomatch h⟩
    show ilImageAddUserString b str = _
    unfold ilImageAddUserString
    rw [hunits]
    exact (congrArg (addContent b .userStrings · _ _ _)
      ((keyOf_of_ne huser _ _).trans (congrArg bucket (ilHashString_append _ _ _)))).symm
  | encodedUserString units last =>
    rw [header_user rfl rfl] at hstored
    rw [hstored]
    let strLen : ILUInt32 := BitVec.ofNat 32 (units.length * 2 + 1)
    refine ⟨unitBytes units ++ [last], _,
      BitVec.ofNat 32 (ilMetaCompressData strLen).length + strLen, ?_, rfl, ?_,
      fun h => nomatch h⟩
    · exact (congrArg (addContent b .userStrings · _ _ _) (keyOf_of_ne huser _ _)).symm
    · show _ = BitVec.ofNat 32 (ilMetaCompressData strLen ++ (unitBytes units ++ [last])).length
      rw [List.length_append, length_unitBytes_append, BitVec.ofNat_add]

/-- The room that an addition needs. -/
structure Fits (b : ILImageBuilder) (add : Add) : Prop where
  small : add.stored.length < 2 ^ 30
  room : (b.poolSize add.heap).toNat + add.stored.length + 1 < 2 ^ 32

theorem stored_pos (add : Add) : 0 < add.stored.length := by
  have hpos := (length_ilMetaCompressData (BitVec.ofNat 32 add.content.length)).1
  unfold Add.stored Add.header
  rw [List.length_append]
  split_ifs with hheap
  · cases add with
    | string str hzero => exact Nat.lt_of_lt_of_le (by simp [Add.content]) (Nat.le_add_left _ _)
    | blob bytes => cases hheap
    | userString str => cases hheap
    | encodedUserString units last => cases hheap
  · exact Nat.add_pos_left hpos _

theorem run_spec (h : Inv b items) {add : Add} (hfits : Fits b add) :
    ∃ items', Adds items add.heap add.stored (add.run b).1 (add.run b).2 items' := by
  obtain ⟨str, header, len, hrun, hstored, hnoted, hblob⟩ := run_eq b add
  have hsmall := hfits.small
  have hroom := hfits.room
  have hpos := stored_pos add
  rw [hrun]
  rw [← hstored] at hnoted hsmall hroom hpos ⊢
  exact addContent_spec h hnoted hblob ⟨hpos, hsmall⟩ hroom

theorem Inv.readsBack (h : Inv b items) (hitem : item ∈ items) {add : Add}
    (hheap : item.entry.heap = add.heap) (hcontent : item.content = add.stored) :
    add.ReadsBack b item.entry.offset := by
  cases add with
  | string str hzero =>
    obtain ⟨more, hget⟩ := h.getString hitem hheap
    exact ⟨more, by rw [hget, hcontent]; rfl⟩
  | blob bytes => exact h.getBlob hitem hheap hcontent
  | userString str =>
    rw [Add.stored, header_user rfl rfl] at hcontent
    exact h.getUserString hitem hheap hcontent
  | encodedUserString units last =>
    rw [Add.stored, header_user rfl rfl] at hcontent
    exact h.getUserString hitem hheap hcontent

/-! ### Runs -/

/-- The states of an image that is built, with the additions so far and the offsets they gave,
the last one first; every addition is `fine` where it is made. -/
inductive Built (fine : ILImageBuilder → List (Add × ILUInt32) → Add → Prop) :
    ILImageBuilder → List (Add × ILUInt32) → Prop
  | create : Built fine ilImageCreate []
  | add {b : ILImageBuilder} {log : List (Add × ILUInt32)} (add : Add) :
      Built fine b log → fine b log add →
        Built fine (add.run b).1 ((add, (add.run b).2) :: log)

/-- There is room, and the blob is new. -/
structure FineAdd (b : ILImageBuilder) (log : List (Add × ILUInt32)) (add : Add) : Prop where
  fits : Fits b add
  new : ∀ bytes, add = .blob bytes → ∀ offset, (.blob bytes, offset) ∉ log

/-- Two blobs with the same stored bytes are the same. -/
theorem blob_inj {bytes bytes' : List ILUInt8}
    (h : (Add.blob bytes).stored = (Add.blob bytes').stored) : bytes = bytes' := by
  have hread := ilMetaUncompressData_compressData (BitVec.ofNat 32 bytes.length) bytes
  have hread' := ilMetaUncompressData_compressData (BitVec.ofNat 32 bytes'.length) bytes'
  change ilMetaCompressData (BitVec.ofNat 32 bytes.length) ++ bytes =
    ilMetaCompressData (BitVec.ofNat 32 bytes'.length) ++ bytes' at h
  rw [h, hread'] at hread
  exact (congrArg (fun r => r.2.data) hread).symm

/-- The entries stand for the additions, and for nothing else. -/
structure Logged (items : List Item) (log : List (Add × ILUInt32)) : Prop where
  item : ∀ e ∈ log, ∃ item ∈ items, item.entry.heap = e.1.heap ∧ item.content = e.1.stored ∧
    item.entry.offset = e.2
  only : ∀ item ∈ items, ∃ e ∈ log, item.entry.heap = e.1.heap ∧ item.content = e.1.stored

theorem Logged.add {items' : List Item} {log : List (Add × ILUInt32)} (h : Logged items log)
    {b' : ILImageBuilder} {add : Add} {offset : ILUInt32}
    (hadds : Adds items add.heap add.stored b' offset items') :
    Logged items' ((add, offset) :: log) := by
  constructor
  · intro e he
    rcases List.mem_cons.1 he with rfl | he
    · exact hadds.new
    · obtain ⟨item, hitem, hrest⟩ := h.item e he
      exact ⟨item, hadds.old item hitem, hrest⟩
  · intro item hitem
    rcases hadds.only item hitem with hold | hnew
    · obtain ⟨e, he, hrest⟩ := h.only item hold
      exact ⟨e, List.mem_cons_of_mem _ he, hrest⟩
    · exact ⟨_, List.mem_cons_self, hnew⟩

/-- A blob that was not added is not there. -/
theorem FineAdd.fresh {log : List (Add × ILUInt32)} {add : Add} (h : FineAdd b log add)
    (hlogged : Logged items log) (hheap : add.heap = .blobs) :
    ∀ item ∈ items, item.entry.heap = .blobs → item.content ≠ add.stored := by
  intro item hitem hitemHeap hcontent
  obtain ⟨e, he, hsame, hstored⟩ := hlogged.only item hitem
  obtain ⟨add', offset⟩ := e
  rw [hitemHeap] at hsame
  cases add with
  | blob bytes =>
    cases add' with
    | blob bytes' =>
      rw [blob_inj (hcontent.symm.trans hstored)] at h
      exact h.new bytes' rfl offset he
    | string str hzero => cases hsame
    | userString str => cases hsame
    | encodedUserString units last => cases hsame
  | string str hzero => cases hheap
  | userString str => cases hheap
  | encodedUserString units last => cases hheap

theorem Built.inv {log : List (Add × ILUInt32)} (h : Built FineAdd b log) :
    ∃ items, Inv b items ∧ Distinct items ∧ Logged items log := by
  induction h with
  | create =>
    exact ⟨[], inv_create, fun _ hitem => absurd hitem List.not_mem_nil,
      ⟨fun _ he => absurd he List.not_mem_nil, fun _ hitem => absurd hitem List.not_mem_nil⟩⟩
  | add add _ hfine ih =>
    obtain ⟨items, hinv, hdistinct, hlogged⟩ := ih
    obtain ⟨items', hadds⟩ := run_spec hinv hfine.fits
    exact ⟨items', hadds.inv, hadds.distinct (hfine.fresh hlogged) hdistinct, hlogged.add hadds⟩

theorem stored_congr {add add' : Add} (hheap : add.heap = add'.heap)
    (hcontent : add.content = add'.content) : add.stored = add'.stored := by
  rw [Add.stored, Add.stored, Add.header, Add.header, hheap, hcontent]

/-- Every offset is read back as what was added, and equal contents of a heap share one. -/
def Sound (b : ILImageBuilder) (log : List (Add × ILUInt32)) : Prop :=
  (∀ e ∈ log, e.1.ReadsBack b e.2) ∧
    ∀ e ∈ log, ∀ e' ∈ log, e.1.heap = e'.1.heap → e.1.content = e'.1.content → e.2 = e'.2

theorem heaps_sound (b : ILImageBuilder) (log : List (Add × ILUInt32)) (h : Built FineAdd b log) :
    Sound b log := by
  obtain ⟨items, hinv, hdistinct, hlogged⟩ := h.inv
  constructor
  · intro e he
    obtain ⟨item, hitem, hheap, hcontent, hoffset⟩ := hlogged.item e he
    rw [← hoffset]
    exact hinv.readsBack hitem hheap hcontent
  · intro e he e' he' hheap hcontent
    obtain ⟨item, hitem, hitemHeap, hitemContent, hoffset⟩ := hlogged.item e he
    obtain ⟨item', hitem', hitemHeap', hitemContent', hoffset'⟩ := hlogged.item e' he'
    rw [← hoffset, ← hoffset']
    refine hdistinct item hitem item' hitem' ?_ ?_
    · rw [hitemHeap, hitemHeap', hheap]
    · rw [hitemContent, hitemContent', stored_congr hheap hcontent]

theorem heaps_sound_sample :
    Sound (Add.run (ilImageAddString ilImageCreate [65]).1 (.blob [1])).1
      [(.blob [1], 1), (.string [65] (by decide), 1)] := by
  refine heaps_sound _ _ (.add (.blob [1]) (.add (.string [65] (by decide)) .create ?_) ?_)
  · exact ⟨⟨by decide, by decide⟩, fun _ h => nomatch h⟩
  · exact ⟨⟨by decide, by decide⟩, fun _ _ _ hmem => by simp at hmem⟩

/-- The second time, a blob of one byte is not found. -/
theorem not_heaps_sound : ¬ ∀ b log, Built (fun _ _ _ => True) b log → Sound b log := by
  intro h
  have hbuilt : Built (fun _ _ _ => True) _ _ :=
    .add (.blob [1]) (.add (.blob [1]) .create trivial) trivial
  have hshared := (h _ _ hbuilt).2 _ List.mem_cons_self _ (List.mem_cons_of_mem _ List.mem_cons_self)
    rfl rfl
  exact absurd hshared (by decide)

end Pnet.Image.Heaps
