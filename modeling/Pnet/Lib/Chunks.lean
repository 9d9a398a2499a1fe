import Mathlib.Data.List.ModifyLast
import Pnet.Lib.ByteWindow

/-! Bytes that are kept in a chain of buffers of one capacity, of which only the last one is not
full. Adding bytes and writing over bytes go from buffer to buffer, and do what they do to the
bytes laid end to end. -/
namespace Pnet.Lib

/-- The buffers from the first to the last, with the bytes that have been put in each, and how many
are in the last one. -/
structure Chunks where
  buffers : List (List (BitVec 8)) := []
  used : Nat := 0
deriving DecidableEq, Repr

namespace Chunks

variable (capacity : Nat)

def contents (chunks : Chunks) : List (BitVec 8) := chunks.buffers.flatten

/-- With another buffer, when there is none or the last one is full. -/
def extend (chunks : Chunks) : Chunks :=
  if chunks.buffers = [] ∨ capacity ≤ chunks.used then ⟨chunks.buffers ++ [[]], 0⟩ else chunks

/-- The bytes go to the end of the last buffer. -/
def put (chunks : Chunks) (bytes : List (BitVec 8)) : Chunks :=
  ⟨chunks.buffers.modifyLast (· ++ bytes), chunks.used + bytes.length⟩

/-- Fills the last buffer, then another, until there are no bytes left or no more passes. -/
def fill (chunks : Chunks) (bytes : List (BitVec 8)) : Nat → Chunks
  | 0 => chunks
  | passes + 1 =>
    if bytes = [] then chunks
    else
      let chunks := chunks.extend capacity
      let temp := min bytes.length (capacity - chunks.used)
      fill (chunks.put (bytes.take temp)) (bytes.drop temp) passes

/-- Each pass takes at least one byte. -/
def add (chunks : Chunks) (bytes : List (BitVec 8)) : Chunks := chunks.fill capacity bytes bytes.length

/-- Writes over the bytes from a position on; `none` when this goes past the last buffer. -/
def overwrite : List (List (BitVec 8)) → Nat → List (BitVec 8) → Option (List (List (BitVec 8)))
  | [], posn, bytes => if posn < capacity ∧ bytes = [] then some [] else none
  | buffer :: rest, posn, bytes =>
    if capacity ≤ posn then (overwrite rest (posn - capacity) bytes).map (buffer :: ·)
    else if bytes = [] then some (buffer :: rest)
    else
      (overwrite rest 0 (bytes.drop (capacity - posn))).map
        (Lib.patch buffer posn (bytes.take (capacity - posn)) :: ·)

/-- The pieces in which the bytes are written out. -/
def pieces (chunks : Chunks) : List (List (BitVec 8)) :=
  chunks.buffers.dropLast.map (List.take capacity) ++
    (chunks.buffers.getLast?.map (List.take chunks.used)).toList

/-- All buffers but the last one are full. -/
def Packed : List (List (BitVec 8)) → Prop
  | [] => True
  | [last] => last.length ≤ capacity
  | buffer :: rest => buffer.length = capacity ∧ Packed rest

structure WellFormed (chunks : Chunks) : Prop where
  packed : Packed capacity chunks.buffers
  used_eq : chunks.used = (chunks.buffers.getLast?.getD []).length

variable {capacity} {chunks : Chunks} {buffers : List (List (BitVec 8))}
  {buffer last bytes : List (BitVec 8)}

theorem wellFormed_empty : WellFormed capacity {} := ⟨trivial, rfl⟩

theorem packed_concat :
    Packed capacity (buffers ++ [last]) ↔
      (∀ buffer ∈ buffers, buffer.length = capacity) ∧ last.length ≤ capacity := by
  induction buffers with
  | nil => simp [Packed]
  | cons buffer rest ih =>
    have hne : rest ++ [last] ≠ [] := by simp
    obtain ⟨first, others, hrest⟩ := List.exists_cons_of_ne_nil hne
    rw [hrest] at ih
    rw [List.cons_append, hrest, Packed, ih, List.forall_mem_cons, and_assoc]
    exact List.cons_ne_nil _ _

/-- Only the lengths of the buffers matter. -/
theorem Packed.of_lengths {buffers' : List (List (BitVec 8))} (h : Packed capacity buffers)
    (hlengths : buffers'.map List.length = buffers.map List.length) : Packed capacity buffers' := by
  induction buffers using List.reverseRecOn generalizing buffers' with
  | nil =>
    rw [List.map_eq_nil_iff.1 hlengths]
    trivial
  | append_singleton front last _ =>
    obtain ⟨hfront, hlast⟩ := packed_concat.1 h
    rw [List.map_append, List.map_eq_append_iff] at hlengths
    obtain ⟨front', tail, rfl, hfront', htail⟩ := hlengths
    obtain ⟨last', rfl, hlast'⟩ := List.map_eq_singleton_iff.1 htail
    refine packed_concat.2 ⟨fun buffer hbuffer => ?_, hlast' ▸ hlast⟩
    have hmem : buffer.length ∈ front.map List.length :=
      hfront' ▸ List.mem_map_of_mem hbuffer
    obtain ⟨other, hother, heq⟩ := List.mem_map.1 hmem
    rw [← heq, hfront other hother]

theorem last_of_lengths {buffers' : List (List (BitVec 8))}
    (hlengths : buffers'.map List.length = buffers.map List.length) :
    (buffers.getLast?.getD []).length = (buffers'.getLast?.getD []).length := by
  have hlast := congrArg List.getLast? hlengths
  rw [List.getLast?_map, List.getLast?_map] at hlast
  cases hbuffers : buffers.getLast? <;> cases hbuffers' : buffers'.getLast? <;>
    simp_all

@[simp] theorem contents_concat (buffers : List (List (BitVec 8))) (used : Nat) :
    contents ⟨buffers ++ [last], used⟩ = buffers.flatten ++ last := by
  simp [contents]

theorem put_concat (used : Nat) :
    put ⟨buffers ++ [last], used⟩ bytes = ⟨buffers ++ [last ++ bytes], used + bytes.length⟩ := by
  rw [put, List.modifyLast_concat]

/-- A last buffer that is not full. -/
theorem WellFormed.extend (h : WellFormed capacity chunks) (hcapacity : 0 < capacity) :
    ∃ buffers last, chunks.extend capacity = ⟨buffers ++ [last], last.length⟩ ∧
      (∀ buffer ∈ buffers, buffer.length = capacity) ∧ last.length < capacity ∧
      buffers.flatten ++ last = chunks.contents := by
  obtain ⟨buffers, used⟩ := chunks
  obtain ⟨hpacked, hused⟩ := h
  unfold Chunks.extend
  cases buffers using List.reverseRecOn with
  | nil => exact ⟨[], [], rfl, by simp, hcapacity, rfl⟩
  | append_singleton front last =>
    rw [List.getLast?_concat, Option.getD_some] at hused
    obtain ⟨hfront, hlast⟩ := packed_concat.1 hpacked
    subst hused
    split_ifs with hfull
    · have hlength : last.length = capacity :=
        le_antisymm hlast (hfull.resolve_left (by simp))
      refine ⟨front ++ [last], [], rfl, ?_, hcapacity, by simp⟩
      intro buffer hbuffer
      rcases List.mem_append.1 hbuffer with hmem | hmem
      · exact hfront buffer hmem
      · rw [List.mem_singleton.1 hmem, hlength]
    · exact ⟨front, last, rfl, hfront, not_le.1 fun hle => hfull (.inr hle), by simp⟩

theorem WellFormed.fill (h : WellFormed capacity chunks) (hcapacity : 0 < capacity) {passes : Nat}
    (hpasses : bytes.length ≤ passes) :
    WellFormed capacity (chunks.fill capacity bytes passes) ∧
      (chunks.fill capacity bytes passes).contents = chunks.contents ++ bytes := by
  induction passes generalizing chunks bytes with
  | zero =>
    obtain rfl := List.length_eq_zero_iff.1 (Nat.le_zero.1 hpasses)
    exact ⟨h, (List.append_nil _).symm⟩
  | succ passes ih =>
    rw [Chunks.fill]
    split_ifs with hempty
    · subst hempty
      exact ⟨h, (List.append_nil _).symm⟩
    · obtain ⟨front, last, hextend, hfront, hlast, hcontents⟩ := h.extend hcapacity
      have hpos : 0 < bytes.length := List.length_pos_of_ne_nil hempty
      simp only [hextend, put_concat]
      generalize htemp : min bytes.length (capacity - last.length) = temp
      have hlength : (bytes.take temp).length = temp := by
        rw [List.length_take]
        omega
      have hput : WellFormed capacity
          ⟨front ++ [last ++ bytes.take temp], last.length + (bytes.take temp).length⟩ := by
        refine ⟨packed_concat.2 ⟨hfront, ?_⟩, ?_⟩
        · rw [List.length_append, hlength]
          omega
        · rw [List.getLast?_concat, Option.getD_some, List.length_append]
      have hrest : (bytes.drop temp).length ≤ passes := by
        rw [List.length_drop]
        omega
      obtain ⟨hwell, hfill⟩ := ih hput hrest
      refine ⟨hwell, hfill.trans ?_⟩
      rw [contents_concat, ← hcontents, ← List.append_assoc, List.append_assoc _ (bytes.take temp),
        List.take_append_drop]

theorem WellFormed.add (h : WellFormed capacity chunks) (hcapacity : 0 < capacity)
    (bytes : List (BitVec 8)) : WellFormed capacity (chunks.add capacity bytes) :=
  (h.fill hcapacity le_rfl).1

theorem WellFormed.contents_add (h : WellFormed capacity chunks) (hcapacity : 0 < capacity)
    (bytes : List (BitVec 8)) :
    (chunks.add capacity bytes).contents = chunks.contents ++ bytes :=
  (h.fill hcapacity le_rfl).2

/-- What is written out is what was added. -/
theorem WellFormed.flatten_pieces (h : WellFormed capacity chunks) :
    (chunks.pieces capacity).flatten = chunks.contents := by
  obtain ⟨buffers, used⟩ := chunks
  obtain ⟨hpacked, hused⟩ := h
  cases buffers using List.reverseRecOn with
  | nil => rfl
  | append_singleton front last =>
    rw [List.getLast?_concat, Option.getD_some] at hused
    subst hused
    have hfront : front.map (List.take capacity) = front := by
      refine (List.map_congr_left fun buffer hbuffer => ?_).trans (List.map_id front)
      exact List.take_of_length_le ((packed_concat.1 hpacked).1 buffer hbuffer).le
    simp only [pieces, List.dropLast_concat, List.getLast?_concat, hfront, Option.map_some,
      List.take_length, Option.toList_some, List.flatten_append, List.flatten_singleton, contents]

/-- Writing over bytes that are there, buffer for buffer. -/
theorem exists_overwrite {posn : Nat} (h : Packed capacity buffers)
    (hinside : posn + bytes.length ≤ buffers.flatten.length) (hcapacity : 0 < capacity) :
    ∃ buffers', overwrite capacity buffers posn bytes = some buffers' ∧
      buffers'.flatten = Lib.patch buffers.flatten posn bytes ∧
      buffers'.map List.length = buffers.map List.length := by
  induction buffers generalizing posn bytes with
  | nil =>
    obtain ⟨hposn, hbytes⟩ : posn = 0 ∧ bytes.length = 0 := by
      rw [List.flatten_nil, List.length_nil] at hinside
      omega
    obtain rfl := List.length_eq_zero_iff.1 hbytes
    exact ⟨[], if_pos ⟨hposn ▸ hcapacity, rfl⟩, (patch_nil ..).symm, rfl⟩
  | cons buffer rest ih =>
    rw [List.flatten_cons, List.length_append] at hinside
    obtain ⟨hrest, hbuffer⟩ : Packed capacity rest ∧
        (buffer.length = capacity ∨ rest = [] ∧ buffer.length ≤ capacity) := by
      cases rest with
      | nil => exact ⟨trivial, .inr ⟨rfl, h⟩⟩
      | cons next others => exact ⟨h.2, .inl h.1⟩
    rw [overwrite]
    split_ifs with hbehind hempty
    · have hlength : buffer.length = capacity := by
        rcases hbuffer with hlength | ⟨rfl, hle⟩
        · exact hlength
        · rw [List.flatten_nil, List.length_nil] at hinside
          omega
      have hfits : posn - capacity + bytes.length ≤ rest.flatten.length := by omega
      obtain ⟨rest', hover, hflatten, hlengths⟩ := ih hrest hfits
      refine ⟨buffer :: rest', by rw [hover, Option.map_some], ?_, ?_⟩
      · rw [List.flatten_cons, List.flatten_cons, hflatten, ← patch_append_right, hlength,
          Nat.add_sub_cancel' hbehind]
      · rw [List.map_cons, List.map_cons, hlengths]
    · subst hempty
      exact ⟨buffer :: rest, rfl, (patch_nil ..).symm, rfl⟩
    · have hsplit := List.take_append_drop (capacity - posn) bytes
      have htake : (bytes.take (capacity - posn)).length = min (capacity - posn) bytes.length :=
        List.length_take
      have hdrop : (bytes.drop (capacity - posn)).length = bytes.length - (capacity - posn) :=
        List.length_drop
      have hfits : posn + (bytes.take (capacity - posn)).length ≤ buffer.length := by
        rcases hbuffer with hlength | ⟨rfl, hle⟩
        · omega
        · rw [List.flatten_nil, List.length_nil] at hinside
          omega
      have hmore : 0 + (bytes.drop (capacity - posn)).length ≤ rest.flatten.length := by
        rcases hbuffer with hlength | ⟨rfl, hle⟩
        · omega
        · rw [List.flatten_nil, List.length_nil] at hinside ⊢
          omega
      obtain ⟨rest', hover, hflatten, hlengths⟩ := ih hrest hmore
      refine ⟨Lib.patch buffer posn (bytes.take (capacity - posn)) :: rest',
        by rw [hover, Option.map_some], ?_, ?_⟩
      · rw [List.flatten_cons, List.flatten_cons, hflatten]
        by_cases hall : bytes.length ≤ capacity - posn
        · rw [List.drop_eq_nil_of_le hall, patch_nil, List.take_of_length_le hall,
            patch_append_left _ _ (by rwa [List.take_of_length_le hall] at hfits)]
        · have hend : posn + (bytes.take (capacity - posn)).length = buffer.length := by
            rcases hbuffer with hlength | ⟨rfl, hle⟩
            · omega
            · rw [List.flatten_nil, List.length_nil] at hinside
              omega
          rw [← patch_append _ _ hend, hsplit]
      · rw [List.map_cons, List.map_cons, hlengths, length_patch hfits]

theorem WellFormed.overwrite {posn : Nat} (h : WellFormed capacity chunks)
    (hinside : posn + bytes.length ≤ chunks.contents.length) (hcapacity : 0 < capacity) :
    ∃ buffers', Chunks.overwrite capacity chunks.buffers posn bytes = some buffers' ∧
      WellFormed capacity ⟨buffers', chunks.used⟩ ∧
      contents ⟨buffers', chunks.used⟩ = Lib.patch chunks.contents posn bytes := by
  obtain ⟨buffers', hover, hflatten, hlengths⟩ := exists_overwrite h.packed hinside hcapacity
  exact ⟨buffers', hover, ⟨h.packed.of_lengths hlengths, h.used_eq.trans (last_of_lengths hlengths)⟩,
    hflatten⟩

end Chunks

end Pnet.Lib
