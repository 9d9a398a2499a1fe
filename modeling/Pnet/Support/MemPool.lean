import Mathlib.Data.List.Pairwise
import Pnet.Lib.LinkedBlocks

/-! The block allocator of `support/mempool.c`, for pointers of eight bytes and a best alignment
of sixteen. The list of blocks and the list of free items are both kept in the memory that the
pool gives out. -/
namespace Pnet.Support
open Pnet.Lib

/-- The bytes, and the pieces that the system has given and not taken back. -/
structure Memory where
  bytes : Bytes
  blocks : List Extent

namespace Memory

def loadPtr (memory : Memory) (p : Nat) : Nat := memory.bytes.load 8 p

def storePtr (memory : Memory) (p value : Nat) : Memory :=
  { memory with bytes := memory.bytes.store 8 p value }

/-- `ILFree` -/
def free (memory : Memory) (p : Nat) : Memory :=
  { memory with blocks := memory.blocks.filter (·.start ≠ p) }

/-- What the system may answer to a request for `n` bytes: a new piece, in which it may have
written. -/
structure Grants (memory : Memory) (n p : Nat) (bytes : Bytes) : Prop where
  nonzero : p ≠ 0
  aligned : 16 ∣ p
  fits : p + n ≤ 2 ^ 64
  apart : ∀ block ∈ memory.blocks, Extent.Apart ⟨p, n⟩ block
  kept : ∀ a, ¬ Extent.Has ⟨p, n⟩ a → bytes a = memory.bytes a

end Memory

/-- `ILMalloc`, `ILCalloc` or `ILPageAlloc`, as it answers to one request. -/
structure System where
  malloc : Memory → Nat → Option (Nat × Bytes)
  grants : ∀ memory n p bytes, malloc memory n = some (p, bytes) → memory.Grants n p bytes

/-- `(size + IL_BEST_ALIGNMENT - 1) & ~(IL_BEST_ALIGNMENT - 1)`, computed in 64 bits and kept in
an `unsigned`. -/
def roundSize (size : BitVec 32) : BitVec 32 :=
  ((size.setWidth 64 + 16#64 - 1#64) &&& ~~~(16#64 - 1#64)).setWidth 32

structure ILMemPool where
  size : BitVec 32
  nitems : BitVec 32
  index : BitVec 32
  blocks : Nat
  freeItems : Nat

namespace ILMemPool

/-- `none` when the size is rounded to zero, by which it divides. -/
def ilMemPoolInit (size nitems : BitVec 32) : Option ILMemPool :=
  let size := roundSize size
  if size = 0 then none
  else
    let maxitems := 4064#32 / size
    let nitems := if nitems ≠ 0 ∧ nitems < maxitems then nitems else maxitems
    some ⟨size, nitems, nitems, 0, 0⟩

/-- The loop of `ILMemPoolClear` over the blocks behind the first one. -/
def freeBlocks : Nat → Memory → Nat → Option Memory
  | 0, memory, block => if block = 0 then some memory else none
  | fuel + 1, memory, block =>
    if block = 0 then some memory
    else
      let next := memory.loadPtr block
      freeBlocks fuel (memory.free block) next

def ilMemPoolClear (fuel : Nat) (pool : ILMemPool) (memory : Memory) :
    Option (ILMemPool × Memory) :=
  if pool.blocks ≠ 0 then
    (freeBlocks fuel memory (memory.loadPtr pool.blocks)).map fun memory =>
      ({ pool with index := 0, freeItems := 0 }, memory.storePtr pool.blocks 0)
  else some ({ pool with freeItems := 0 }, memory)

/-- The item, zero if there is none. -/
def ilMemPoolAllocItem (system : System) (pool : ILMemPool) (memory : Memory) :
    Nat × ILMemPool × Memory :=
  if pool.freeItems ≠ 0 then
    (pool.freeItems, { pool with freeItems := memory.loadPtr pool.freeItems }, memory)
  else if pool.index < pool.nitems then
    (pool.blocks + 16 + (pool.index * pool.size).toNat, { pool with index := pool.index + 1 }, memory)
  else
    match system.malloc memory (16 + (pool.size * pool.nitems).toNat) with
    | none => (0, pool, memory)
    | some (block, bytes) =>
      let memory : Memory := ⟨bytes, ⟨block, 16 + (pool.size * pool.nitems).toNat⟩ :: memory.blocks⟩
      (block + 16, { pool with blocks := block, index := 1 }, memory.storePtr block pool.blocks)

def ilMemPoolFree (pool : ILMemPool) (memory : Memory) (item : Nat) : ILMemPool × Memory :=
  ({ pool with freeItems := item }, memory.storePtr item pool.freeItems)

end ILMemPool

/-! ### Runs -/

/-- An allocator, its memory, and the items that were given out and are still in use. -/
structure Holdings (α : Type) where
  allocator : α
  memory : Memory
  live : List Extent

namespace Holdings

variable {α : Type}

/-- Every item in use lies in one block and behind its link word, is aligned, and lies apart from
the others. -/
structure Sound (s : Holdings α) : Prop where
  inside : ∀ item ∈ s.live, ∃ block ∈ s.memory.blocks,
    block.start + 8 ≤ item.start ∧ item.start + item.size ≤ block.start + block.size
  aligned : ∀ item ∈ s.live, 16 ∣ item.start
  apart : s.live.Pairwise Extent.Apart

/-- The bytes of the items that stay in use are what they were. -/
def Untouched (s s' : Holdings α) : Prop :=
  ∀ item ∈ s.live, item ∈ s'.live → ∀ a, item.Has a → s'.memory.bytes a = s.memory.bytes a

/-- The program writes, but not into what belongs to the allocator. -/
def Writes (s : Holdings α) (bytes : Bytes) : Prop :=
  ∀ a, (∃ block ∈ s.memory.blocks, block.Has a) → (∀ item ∈ s.live, ¬ item.Has a) →
    bytes a = s.memory.bytes a

def write (s : Holdings α) (bytes : Bytes) : Holdings α :=
  { s with memory := { s.memory with bytes := bytes } }

/-- An item that was given out, unless it is null. -/
def give (live : List Extent) (size : Nat) (result : Nat × α × Memory) : Holdings α :=
  ⟨result.2.1, result.2.2, if result.1 = 0 then live else ⟨result.1, size⟩ :: live⟩

end Holdings

/-- What the allocator does at a call. -/
inductive PoolCall (size : Nat) : Holdings ILMemPool → Holdings ILMemPool → Prop where
  | alloc (system : System) (s : Holdings ILMemPool) :
      PoolCall size s (.give s.live size (s.allocator.ilMemPoolAllocItem system s.memory))
  | free (s : Holdings ILMemPool) {item : Extent} (h : item ∈ s.live) :
      PoolCall size s ⟨(s.allocator.ilMemPoolFree s.memory item.start).1,
        (s.allocator.ilMemPoolFree s.memory item.start).2, s.live.erase item⟩
  | clear (fuel : Nat) (s : Holdings ILMemPool) {pool : ILMemPool} {memory : Memory}
      (h : s.allocator.ilMemPoolClear fuel s.memory = some (pool, memory)) :
      PoolCall size s ⟨pool, memory, []⟩

/-- Calls, and what the program writes between them. -/
inductive PoolStep (size : Nat) : Holdings ILMemPool → Holdings ILMemPool → Prop where
  | call {s s' : Holdings ILMemPool} (h : PoolCall size s s') : PoolStep size s s'
  | write {s : Holdings ILMemPool} {bytes : Bytes} (h : s.Writes bytes) :
      PoolStep size s (s.write bytes)

/-- In every run that starts with a new pool: the items are sound, no call touches an item that
stays in use, and a clear ends. -/
def PoolSound (size nitems : BitVec 32) : Prop :=
  ∃ pool, ILMemPool.ilMemPoolInit size nitems = some pool ∧ ∀ bytes s,
    Relation.ReflTransGen (PoolStep size.toNat) ⟨pool, ⟨bytes, []⟩, []⟩ s →
      s.Sound ∧ (∀ s', PoolCall size.toNat s s' → s.Untouched s') ∧
      ∃ fuel cleared, s.allocator.ilMemPoolClear fuel s.memory = some cleared

/-! ### The size of an item -/

theorem toNat_roundSize (size : BitVec 32) :
    (roundSize size).toNat = (size.toNat + 15) / 16 * 16 % 2 ^ 32 := by
  have hmask : ∀ x : BitVec 64, x &&& ~~~(16#64 - 1#64) = x >>> 4 <<< 4 := by
    intro x
    apply BitVec.eq_of_getLsbD_eq
    intro i hi
    have hlow : (16#64 - 1#64).getLsbD i = decide (i < 4) := by
      rw [show 16#64 - 1#64 = BitVec.ofNat 64 (2 ^ 4 - 1) from rfl, BitVec.getLsbD_ofNat,
        Nat.testBit_two_pow_sub_one]
      simp [hi]
    rw [BitVec.getLsbD_and, BitVec.getLsbD_not, hlow, BitVec.getLsbD_shiftLeft,
      BitVec.getLsbD_ushiftRight]
    by_cases h4 : i < 4
    · simp [h4]
    · have hsplit : 4 + (i - 4) = i := by omega
      simp [h4, hi, hsplit]
  have hsize := size.isLt
  rw [roundSize, hmask, BitVec.toNat_setWidth, BitVec.toNat_shiftLeft, BitVec.toNat_ushiftRight]
  have hsum : (size.setWidth 64 + 16#64 - 1#64).toNat = size.toNat + 15 := by
    rw [BitVec.toNat_sub, BitVec.toNat_add, BitVec.toNat_setWidth, BitVec.toNat_ofNat,
      BitVec.toNat_ofNat]
    omega
  rw [hsum, Nat.shiftLeft_eq, Nat.shiftRight_eq_div_pow]
  omega

/-- Items of `size` bytes, `nitems` of which fill a block at steps of `psize`. -/
structure Shape (size : Nat) (psize nitems : BitVec 32) : Prop where
  pos : 0 < size
  le : size ≤ psize.toNat
  dvd : 16 ∣ psize.toNat
  some : 0 < nitems.toNat
  fits : psize.toNat * nitems.toNat ≤ 4064

namespace Shape

variable {size : Nat} {psize nitems : BitVec 32}

theorem length (h : Shape size psize nitems) :
    16 + (psize * nitems).toNat = 16 + psize.toNat * nitems.toNat := by
  have hfits := h.fits
  rw [BitVec.toNat_mul, Nat.mod_eq_of_lt (by omega)]

theorem offset (h : Shape size psize nitems) {index : BitVec 32} (hindex : index < nitems) :
    (index * psize).toNat = index.toNat * psize.toNat := by
  have hle : index.toNat * psize.toNat ≤ nitems.toNat * psize.toNat :=
    Nat.mul_le_mul_right _ (BitVec.lt_def.mp hindex).le
  have hfits := h.fits
  rw [Nat.mul_comm] at hfits
  rw [BitVec.toNat_mul, Nat.mod_eq_of_lt (by omega)]

end Shape

theorem ilMemPoolInit_eq_none (size nitems : BitVec 32) (h : roundSize size = 0) :
    ILMemPool.ilMemPoolInit size nitems = none := by
  rw [ILMemPool.ilMemPoolInit]
  exact if_pos h

theorem ilMemPoolInit_shape (size nitems : BitVec 32) (hpos : 0 < size.toNat)
    (hle : size.toNat ≤ 4064) : ∃ psize nitems', Shape size.toNat psize nitems' ∧
      ILMemPool.ilMemPoolInit size nitems = some ⟨psize, nitems', nitems', 0, 0⟩ := by
  have hround := toNat_roundSize size
  rw [Nat.mod_eq_of_lt (by omega)] at hround
  have hne : roundSize size ≠ 0 := by
    intro h
    rw [h] at hround
    change 0 = _ at hround
    omega
  have hmax : (4064#32 / roundSize size).toNat = 4064 / (roundSize size).toNat := by
    rw [BitVec.toNat_udiv]
    rfl
  have hmaxpos : 0 < 4064 / (roundSize size).toNat := Nat.div_pos (by omega) (by omega)
  have hmaxfits := Nat.mul_div_le 4064 (roundSize size).toNat
  have hdvd : 16 ∣ (roundSize size).toNat := by
    rw [hround]
    exact Nat.dvd_mul_left ..
  refine ⟨roundSize size, _, ?_, if_neg hne⟩
  split_ifs with hhint
  · have hlt := BitVec.lt_def.mp hhint.2
    have hle := Nat.mul_le_mul_left (roundSize size).toNat hlt.le
    have hpos' : nitems.toNat ≠ 0 := fun hzero => hhint.1 (BitVec.eq_of_toNat_eq hzero)
    rw [hmax] at hle
    exact ⟨hpos, by omega, hdvd, by omega, by omega⟩
  · exact ⟨hpos, by omega, hdvd, by omega, by rw [hmax]; exact hmaxfits⟩

/-! ### The places of items -/

/-- The number of bytes of a block. -/
abbrev blockSize (psize nitems : BitVec 32) : Nat := 16 + psize.toNat * nitems.toNat

/-- One of the first `count` places of a block. -/
def SlotOf (psize : BitVec 32) (count block item : Nat) : Prop :=
  ∃ i < count, item = block + 16 + i * psize.toNat

/-- The places that were given out: those below the index in the first block, and all of the
other blocks. -/
def Slot (psize nitems : BitVec 32) (index : Nat) : List Nat → Nat → Prop
  | [], _ => False
  | block :: blocks, item => SlotOf psize index block item ∨
      ∃ block' ∈ blocks, SlotOf psize nitems.toNat block' item

section Slot

variable {size : Nat} {psize nitems : BitVec 32} {index count block item : Nat} {blocks : List Nat}

theorem SlotOf.within (h : SlotOf psize count block item) (hcount : count ≤ nitems.toNat) :
    block + 16 ≤ item ∧ item + psize.toNat ≤ block + blockSize psize nitems := by
  obtain ⟨i, hi, rfl⟩ := h
  have hmul : (i + 1) * psize.toNat ≤ nitems.toNat * psize.toNat :=
    Nat.mul_le_mul_right _ (by omega)
  rw [Nat.succ_mul, Nat.mul_comm nitems.toNat] at hmul
  unfold blockSize
  omega

/-- Every place is one of a block. -/
theorem Slot.exists (h : Slot psize nitems index blocks item) (hindex : index ≤ nitems.toNat) :
    ∃ block ∈ blocks, SlotOf psize nitems.toNat block item := by
  cases blocks with
  | nil => cases h
  | cons block blocks =>
    cases h with
    | inl h =>
      obtain ⟨i, hi, heq⟩ := h
      exact ⟨block, List.mem_cons_self, i, by omega, heq⟩
    | inr h =>
      obtain ⟨block', hmem, h⟩ := h
      exact ⟨block', List.mem_cons_of_mem _ hmem, h⟩

theorem Slot.mono {index' : Nat} (h : Slot psize nitems index blocks item)
    (hindex : index ≤ index') : Slot psize nitems index' blocks item := by
  cases blocks with
  | nil => exact h
  | cons block blocks =>
    apply h.imp_left
    rintro ⟨i, hi, heq⟩
    exact ⟨i, by omega, heq⟩

/-- When the first block is full, another one may come before it. -/
theorem Slot.push {index' : Nat} (new : Nat) (h : Slot psize nitems index blocks item)
    (hindex : index ≤ nitems.toNat) : Slot psize nitems index' (new :: blocks) item :=
  .inr (h.exists hindex)

/-- Blocks of this size that lie apart. -/
def BlocksApart (psize nitems : BitVec 32) (blocks : List Nat) : Prop :=
  blocks.Pairwise fun block block' =>
    Extent.Apart ⟨block, blockSize psize nitems⟩ ⟨block', blockSize psize nitems⟩

theorem BlocksApart.apart (h : BlocksApart psize nitems blocks) {block' : Nat}
    (hmem : block ∈ blocks) (hmem' : block' ∈ blocks) (hne : block ≠ block') :
    Extent.Apart ⟨block, blockSize psize nitems⟩ ⟨block', blockSize psize nitems⟩ :=
  have : Std.Symm fun block block' : Nat =>
      Extent.Apart ⟨block, blockSize psize nitems⟩ ⟨block', blockSize psize nitems⟩ :=
    ⟨fun _ _ => Extent.Apart.symm⟩
  List.Pairwise.forall h hmem hmem' hne

/-- Two places are the same or lie apart. -/
theorem slotOf_apart (h : BlocksApart psize nitems blocks) {block' item' : Nat}
    (hmem : block ∈ blocks) (hmem' : block' ∈ blocks)
    (hslot : SlotOf psize nitems.toNat block item)
    (hslot' : SlotOf psize nitems.toNat block' item') (hne : item ≠ item') :
    Extent.Apart ⟨item, psize.toNat⟩ ⟨item', psize.toNat⟩ := by
  by_cases hblock : block = block'
  · subst hblock
    obtain ⟨i, _, rfl⟩ := hslot
    obtain ⟨j, _, rfl⟩ := hslot'
    have hij : i ≠ j := fun hij => hne (by rw [hij])
    unfold Extent.Apart
    dsimp only
    rcases Nat.lt_or_gt_of_ne hij with hlt | hgt
    · have hmul : (i + 1) * psize.toNat ≤ j * psize.toNat := Nat.mul_le_mul_right _ hlt
      rw [Nat.succ_mul] at hmul
      omega
    · have hmul : (j + 1) * psize.toNat ≤ i * psize.toNat := Nat.mul_le_mul_right _ hgt
      rw [Nat.succ_mul] at hmul
      omega
  · have hapart := h.apart hmem hmem' hblock
    have hin := hslot.within (Nat.le_refl _)
    have hin' := hslot'.within (Nat.le_refl _)
    unfold Extent.Apart at *
    dsimp only at *
    omega

theorem slot_apart (h : BlocksApart psize nitems blocks) {item' : Nat}
    (hindex : index ≤ nitems.toNat) (hslot : Slot psize nitems index blocks item)
    (hslot' : Slot psize nitems index blocks item') (hne : item ≠ item') :
    Extent.Apart ⟨item, psize.toNat⟩ ⟨item', psize.toNat⟩ := by
  obtain ⟨block, hmem, hof⟩ := hslot.exists hindex
  obtain ⟨block', hmem', hof'⟩ := hslot'.exists hindex
  exact slotOf_apart h hmem hmem' hof hof' hne

/-- The start of a block is no place for an item. -/
theorem slot_apart_link (h : BlocksApart psize nitems blocks) (hindex : index ≤ nitems.toNat)
    (hmem : block ∈ blocks) (hslot : Slot psize nitems index blocks item) :
    Extent.Apart ⟨block, 16⟩ ⟨item, psize.toNat⟩ := by
  obtain ⟨block', hmem', hof⟩ := hslot.exists hindex
  have hin := hof.within (Nat.le_refl _)
  by_cases hblock : block = block'
  · subst hblock
    exact .inl hin.1
  · have hapart := h.apart hmem hmem' hblock
    unfold Extent.Apart blockSize at *
    dsimp only at *
    omega

/-- The place at the index was not given out yet. -/
theorem Slot.ne_next (h : BlocksApart psize nitems (block :: blocks))
    (hpsize : 0 < psize.toNat) (hindex : index < nitems.toNat)
    (hslot : Slot psize nitems index (block :: blocks) item) :
    item ≠ block + 16 + index * psize.toNat := by
  rintro rfl
  cases hslot with
  | inl hslot =>
    obtain ⟨i, hi, heq⟩ := hslot
    have hmul := Nat.eq_of_mul_eq_mul_right hpsize (Nat.add_left_cancel heq)
    omega
  | inr hslot =>
    obtain ⟨block', hmem, hslot⟩ := hslot
    have hne : block ≠ block' := by
      rintro rfl
      have hself := (List.pairwise_cons.mp h).1 block hmem
      unfold Extent.Apart blockSize at hself
      dsimp only at hself
      omega
    have hapart := h.apart List.mem_cons_self (List.mem_cons_of_mem _ hmem) hne
    have hin := hslot.within (Nat.le_refl _)
    have hnext : SlotOf psize nitems.toNat block (block + 16 + index * psize.toNat) :=
      ⟨index, hindex, rfl⟩
    have hin' := hnext.within (Nat.le_refl _)
    unfold Extent.Apart at hapart
    dsimp only at hapart
    omega

end Slot

/-! ### The invariant -/

/-- What holds between two calls, with the blocks and the free items of the pool. -/
structure PoolInv (size : Nat) (psize nitems : BitVec 32) (s : Holdings ILMemPool)
    (blocks items : List Nat) : Prop where
  size_eq : s.allocator.size = psize
  nitems_eq : s.allocator.nitems = nitems
  index : s.allocator.index.toNat ≤ nitems.toNat
  empty : blocks = [] → s.allocator.index = nitems
  held : s.memory.blocks = blocks.map fun block => ⟨block, blockSize psize nitems⟩
  placed : ∀ block ∈ blocks, 16 ∣ block ∧ block + blockSize psize nitems ≤ 2 ^ 64
  apart : BlocksApart psize nitems blocks
  chain : Chain (s.memory.bytes.next 8) (Bytes.toLink s.allocator.blocks) blocks
  free : Chain (s.memory.bytes.next 8) (Bytes.toLink s.allocator.freeItems) items
  slots : ∀ item ∈ items ++ s.live.map Extent.start,
    Slot psize nitems s.allocator.index.toNat blocks item
  once : (items ++ s.live.map Extent.start).Nodup
  sizes : ∀ item ∈ s.live, item.size = size

namespace PoolInv

variable {size : Nat} {psize nitems : BitVec 32} {s : Holdings ILMemPool} {blocks items : List Nat}
  {item : Extent}

theorem slot_of_live (h : PoolInv size psize nitems s blocks items) (hitem : item ∈ s.live) :
    Slot psize nitems s.allocator.index.toNat blocks item.start :=
  h.slots _ (List.mem_append_right _ (List.mem_map_of_mem hitem))

/-- An item in use lies in the place where it starts. -/
theorem within (hshape : Shape size psize nitems) (h : PoolInv size psize nitems s blocks items)
    (hitem : item ∈ s.live) : item.Within ⟨item.start, psize.toNat⟩ := by
  have hsize := h.sizes item hitem
  have hle := hshape.le
  unfold Extent.Within
  dsimp only
  omega

/-- An item in use lies apart from every other place. -/
theorem live_apart (hshape : Shape size psize nitems) (h : PoolInv size psize nitems s blocks items)
    (hitem : item ∈ s.live) {x : Nat} (hslot : Slot psize nitems s.allocator.index.toNat blocks x)
    (hne : item.start ≠ x) : item.Apart ⟨x, psize.toNat⟩ :=
  (h.within hshape hitem).apart (slot_apart h.apart h.index (h.slot_of_live hitem) hslot hne)

theorem sound (hshape : Shape size psize nitems) (h : PoolInv size psize nitems s blocks items) :
    s.Sound where
  inside item hitem := by
    obtain ⟨block, hmem, hof⟩ := (h.slot_of_live hitem).exists h.index
    have hin := hof.within (Nat.le_refl _)
    have hsize := h.sizes item hitem
    have hle := hshape.le
    refine ⟨⟨block, blockSize psize nitems⟩, ?_, ?_⟩
    · rw [h.held]
      exact List.mem_map_of_mem hmem
    · dsimp only
      omega
  aligned item hitem := by
    obtain ⟨block, hmem, i, _, heq⟩ := (h.slot_of_live hitem).exists h.index
    rw [heq]
    exact Nat.dvd_add (Nat.dvd_add (h.placed block hmem).1 (Nat.dvd_refl 16))
      (Nat.dvd_mul_left_of_dvd hshape.dvd i)
  apart := by
    have honce := List.pairwise_map.mp h.once.of_append_right
    apply honce.imp_of_mem
    intro item item' hitem hitem' hne
    exact ((h.within hshape hitem').apart
      (h.live_apart hshape hitem (h.slot_of_live hitem') hne).symm).symm

/-- The link words are the allocator's. -/
theorem owns (hshape : Shape size psize nitems) (h : PoolInv size psize nitems s blocks items)
    {x a : Nat} (hx : x ∈ blocks ++ items) (hlow : x ≤ a) (hhigh : a < x + 8) :
    (∃ block ∈ s.memory.blocks, block.Has a) ∧ ∀ item ∈ s.live, ¬ item.Has a := by
  have hpsize : 16 ≤ psize.toNat := by
    have hpos := hshape.pos
    have hle := hshape.le
    exact Nat.le_of_dvd (by omega) hshape.dvd
  rw [h.held]
  rcases List.mem_append.mp hx with hx | hx
  · refine ⟨⟨_, List.mem_map_of_mem hx, ?_⟩, fun item hitem hhas => ?_⟩
    · unfold Extent.Has blockSize
      dsimp only
      omega
    · have hslot := h.slot_of_live hitem
      have hapart := slot_apart_link h.apart h.index hx hslot
      have hplace := (h.within hshape hitem).has hhas
      refine hapart.not_has hplace ?_
      unfold Extent.Has
      dsimp only
      omega
  · have hslot := h.slots x (List.mem_append_left _ hx)
    obtain ⟨block, hmem, hof⟩ := hslot.exists h.index
    have hin := hof.within (Nat.le_refl _)
    refine ⟨⟨_, List.mem_map_of_mem hmem, ?_⟩, fun item hitem => ?_⟩
    · unfold Extent.Has
      dsimp only
      omega
    · have hne : item.start ≠ x := fun heq =>
        (List.disjoint_of_nodup_append h.once) hx (heq ▸ List.mem_map_of_mem hitem)
      apply (h.live_apart hshape hitem hslot hne).not_has
      unfold Extent.Has
      dsimp only
      omega

theorem write (hshape : Shape size psize nitems) (h : PoolInv size psize nitems s blocks items)
    {bytes : Bytes} (hwrites : s.Writes bytes) :
    PoolInv size psize nitems (s.write bytes) blocks items := by
  have hsame : ∀ x ∈ blocks ++ items, bytes.next 8 x = s.memory.bytes.next 8 x :=
    fun x hx => Bytes.next_congr fun a hlow hhigh => by
      have howns := h.owns hshape hx hlow hhigh
      exact hwrites a howns.1 howns.2
  exact { h with
    chain := h.chain.congr fun x hx => hsame x (List.mem_append_left _ hx)
    free := h.free.congr fun x hx => hsame x (List.mem_append_right _ hx) }

/-! ### Allocation -/

/-- A free item, the next place of the first block, or a new block when that one is full. -/
theorem alloc_cases (hshape : Shape size psize nitems)
    (h : PoolInv size psize nitems s blocks items) (system : System) :
    (∃ x items', items = x :: items' ∧ s.allocator.ilMemPoolAllocItem system s.memory =
      (x, ⟨psize, nitems, s.allocator.index, s.allocator.blocks, s.memory.loadPtr x⟩, s.memory)) ∨
    (∃ block blocks', items = [] ∧ blocks = block :: blocks' ∧ s.allocator.index < nitems ∧
      s.allocator.ilMemPoolAllocItem system s.memory =
        (block + 16 + s.allocator.index.toNat * psize.toNat,
          ⟨psize, nitems, s.allocator.index + 1, block, s.allocator.freeItems⟩, s.memory)) ∨
    s.allocator.ilMemPoolAllocItem system s.memory = (0, s.allocator, s.memory) ∨
    (∃ block bytes, items = [] ∧ s.memory.Grants (blockSize psize nitems) block bytes ∧
      s.allocator.ilMemPoolAllocItem system s.memory =
        (block + 16, ⟨psize, nitems, 1, block, s.allocator.freeItems⟩,
          Memory.storePtr ⟨bytes, ⟨block, blockSize psize nitems⟩ :: s.memory.blocks⟩ block
            s.allocator.blocks)) := by
  unfold ILMemPool.ilMemPoolAllocItem
  rw [h.size_eq, h.nitems_eq]
  cases items with
  | cons x items =>
    left
    obtain ⟨hfirst, _⟩ := h.free.of_cons
    obtain ⟨heq, hne⟩ := Bytes.toLink_eq_some.mp hfirst
    exact ⟨x, items, rfl, by rw [if_pos (heq ▸ hne), heq]⟩
  | nil =>
    have hfree : s.allocator.freeItems = 0 := Bytes.toLink_eq_none.mp h.free.of_nil
    rw [if_neg (not_not.mpr hfree)]
    right
    by_cases hnext : s.allocator.index < nitems
    · left
      cases blocks with
      | nil => exact absurd (h.empty rfl ▸ hnext) (BitVec.lt_irrefl _)
      | cons block blocks =>
        obtain ⟨hfirst, _⟩ := h.chain.of_cons
        obtain ⟨heq, _⟩ := Bytes.toLink_eq_some.mp hfirst
        exact ⟨block, blocks, rfl, rfl, hnext, by rw [if_pos hnext, heq, hshape.offset hnext]⟩
    · right
      rw [if_neg hnext, hshape.length]
      cases hmalloc : system.malloc s.memory (16 + psize.toNat * nitems.toNat) with
      | none => exact .inl rfl
      | some granted =>
        obtain ⟨block, bytes⟩ := granted
        exact .inr ⟨block, bytes, rfl, system.grants _ _ _ _ hmalloc, rfl⟩

theorem reuse {x : Nat} (h : PoolInv size psize nitems s blocks (x :: items)) :
    PoolInv size psize nitems ⟨⟨psize, nitems, s.allocator.index, s.allocator.blocks,
      s.memory.loadPtr x⟩, s.memory, ⟨x, size⟩ :: s.live⟩ blocks items := by
  have hperm : (items ++ x :: s.live.map Extent.start).Perm
      (x :: items ++ s.live.map Extent.start) := List.perm_middle
  exact { h with
    size_eq := rfl
    nitems_eq := rfl
    empty := h.empty
    index := h.index
    chain := h.chain
    free := h.free.of_cons.2
    slots := fun item hitem => h.slots item (hperm.mem_iff.mp hitem)
    once := hperm.nodup_iff.mpr h.once
    sizes := List.forall_mem_cons.mpr ⟨rfl, h.sizes⟩ }

theorem advance (hshape : Shape size psize nitems) {block : Nat}
    (h : PoolInv size psize nitems s (block :: blocks) []) (hnext : s.allocator.index < nitems) :
    PoolInv size psize nitems ⟨⟨psize, nitems, s.allocator.index + 1, block,
      s.allocator.freeItems⟩, s.memory, ⟨block + 16 + s.allocator.index.toNat * psize.toNat, size⟩ :: s.live⟩
      (block :: blocks) [] := by
  have hpsize : 0 < psize.toNat := hshape.pos.trans_le hshape.le
  have hlt := BitVec.lt_def.mp hnext
  have hindex : (s.allocator.index + 1).toNat = s.allocator.index.toNat + 1 := by
    have hmax := nitems.isLt
    rw [BitVec.toNat_add, show BitVec.toNat (1 : BitVec 32) = 1 from rfl]
    omega
  have hfirst := (Bytes.toLink_eq_some.mp h.chain.of_cons.1).1
  refine { h with
    size_eq := rfl
    nitems_eq := rfl
    index := hindex ▸ hlt
    empty := fun hempty => absurd hempty (List.cons_ne_nil _ _)
    chain := hfirst ▸ h.chain
    slots := ?_
    once := ?_
    sizes := List.forall_mem_cons.mpr ⟨rfl, h.sizes⟩ }
  · intro item hitem
    dsimp only at hitem ⊢
    rw [hindex]
    rcases List.mem_cons.mp hitem with rfl | hitem
    · exact .inl ⟨_, Nat.lt_succ_self _, rfl⟩
    · exact (h.slots item hitem).mono (Nat.le_succ _)
  · refine List.nodup_cons.mpr ⟨fun hmem => ?_, h.once⟩
    exact (h.slots _ hmem).ne_next h.apart hpsize hlt rfl

theorem grow (hshape : Shape size psize nitems) (h : PoolInv size psize nitems s blocks [])
    {block : Nat} {bytes : Bytes} (hgrants : s.memory.Grants (blockSize psize nitems) block bytes) :
    PoolInv size psize nitems ⟨⟨psize, nitems, 1, block, s.allocator.freeItems⟩,
      Memory.storePtr ⟨bytes, ⟨block, blockSize psize nitems⟩ :: s.memory.blocks⟩ block
        s.allocator.blocks, ⟨block + 16, size⟩ :: s.live⟩ (block :: blocks) [] := by
  have hapart : ∀ other ∈ blocks,
      Extent.Apart ⟨block, blockSize psize nitems⟩ ⟨other, blockSize psize nitems⟩ :=
    fun other hother => hgrants.apart _ (h.held ▸ List.mem_map_of_mem hother)
  have hlink : s.allocator.blocks < 256 ^ 8 := by
    cases blocks with
    | nil =>
      rw [Bytes.toLink_eq_none.mp h.chain.of_nil]
      exact Nat.two_pow_pos 64
    | cons first blocks =>
      have hplaced := (h.placed first List.mem_cons_self).2
      rw [(Bytes.toLink_eq_some.mp h.chain.of_cons.1).1]
      unfold blockSize at hplaced
      omega
  have hsame : ∀ other ∈ blocks,
      (bytes.store 8 block s.allocator.blocks).next 8 other = s.memory.bytes.next 8 other := by
    intro other hother
    apply Bytes.next_congr
    intro a hlow hhigh
    have hout : ¬ Extent.Has ⟨block, blockSize psize nitems⟩ a := by
      apply (hapart other hother).not_has
      unfold Extent.Has blockSize
      dsimp only
      omega
    rw [Bytes.store_of_not, hgrants.kept a hout]
    intro hin
    apply hout
    unfold Extent.Has blockSize
    dsimp only
    omega
  have hslots : ∀ item ∈ s.live.map Extent.start, Slot psize nitems 1 (block :: blocks) item :=
    fun item hitem => (h.slots item hitem).push block h.index
  have hsome := hshape.some
  exact {
    size_eq := rfl
    nitems_eq := rfl
    index := hshape.some
    empty := fun hempty => absurd hempty (List.cons_ne_nil _ _)
    held := congrArg _ h.held
    placed := List.forall_mem_cons.mpr ⟨⟨hgrants.aligned, hgrants.fits⟩, h.placed⟩
    apart := List.pairwise_cons.mpr ⟨hapart, h.apart⟩
    chain := by
      rw [Bytes.toLink_of_ne hgrants.nonzero]
      apply Chain.cons
      rw [Memory.storePtr, Bytes.next, Bytes.load_store hlink]
      exact h.chain.congr hsame
    free := h.free.of_nil ▸ .nil
    slots := List.forall_mem_cons.mpr ⟨.inl ⟨0, Nat.one_pos, by rw [Nat.zero_mul, Nat.add_zero]⟩,
      hslots⟩
    once := by
      refine List.nodup_cons.mpr ⟨fun hmem => ?_, h.once⟩
      obtain ⟨other, hother, hof⟩ := (h.slots _ hmem).exists h.index
      have hin := hof.within (Nat.le_refl _)
      have hpsize : 0 < psize.toNat := hshape.pos.trans_le hshape.le
      have hmul := Nat.mul_pos hpsize hsome
      have hout := hapart other hother
      unfold Extent.Apart blockSize at *
      dsimp only at *
      omega
    sizes := List.forall_mem_cons.mpr ⟨rfl, h.sizes⟩ }

theorem alloc (hshape : Shape size psize nitems)
    (h : PoolInv size psize nitems s blocks items) (system : System) :
    let s' := Holdings.give s.live size (s.allocator.ilMemPoolAllocItem system s.memory)
    (∃ blocks' items', PoolInv size psize nitems s' blocks' items') ∧ s.Untouched s' := by
  obtain ⟨x, items', rfl, halloc⟩ | ⟨block, blocks', rfl, rfl, hnext, halloc⟩ | halloc |
    ⟨block, bytes, rfl, hgrants, halloc⟩ := h.alloc_cases hshape system
  · have hne := (Bytes.toLink_eq_some.mp h.free.of_cons.1).2
    rw [halloc, Holdings.give, if_neg hne]
    exact ⟨⟨blocks, items', h.reuse⟩, fun _ _ _ _ _ => rfl⟩
  · rw [halloc, Holdings.give, if_neg (by dsimp only; omega)]
    exact ⟨⟨_, _, h.advance hshape hnext⟩, fun _ _ _ _ _ => rfl⟩
  · rw [halloc]
    exact ⟨⟨blocks, items, h⟩, fun _ _ _ _ _ => rfl⟩
  · rw [halloc, Holdings.give, if_neg (by dsimp only; omega)]
    refine ⟨⟨_, _, h.grow hshape hgrants⟩, fun item hitem _ a hhas => ?_⟩
    obtain ⟨other, hother, hof⟩ := (h.slot_of_live hitem).exists h.index
    have hin := hof.within (Nat.le_refl _)
    have hplace := (h.within hshape hitem).has hhas
    have hout : ¬ Extent.Has ⟨block, blockSize psize nitems⟩ a := by
      apply (hgrants.apart _ (h.held ▸ List.mem_map_of_mem hother)).not_has
      unfold Extent.Has at *
      dsimp only at *
      omega
    dsimp only [Memory.storePtr]
    rw [Bytes.store_of_not, hgrants.kept a hout]
    intro hlink
    apply hout
    unfold Extent.Has blockSize
    dsimp only
    omega

/-! ### Release -/

theorem release (hshape : Shape size psize nitems) (h : PoolInv size psize nitems s blocks items)
    (hitem : item ∈ s.live) :
    let s' : Holdings ILMemPool := ⟨(s.allocator.ilMemPoolFree s.memory item.start).1,
      (s.allocator.ilMemPoolFree s.memory item.start).2, s.live.erase item⟩
    PoolInv size psize nitems s' blocks (item.start :: items) ∧ s.Untouched s' := by
  have hpsize : 16 ≤ psize.toNat := by
    have hpos := hshape.pos
    have hle := hshape.le
    exact Nat.le_of_dvd (by omega) hshape.dvd
  have hslot := h.slot_of_live hitem
  have hperm : (items ++ s.live.map Extent.start).Perm
      (item.start :: items ++ (s.live.erase item).map Extent.start) :=
    (((List.perm_cons_erase hitem).map Extent.start).append_left items).trans List.perm_middle
  have honce := hperm.nodup_iff.mp h.once
  have hlink : s.allocator.freeItems < 256 ^ 8 := by
    cases items with
    | nil =>
      rw [Bytes.toLink_eq_none.mp h.free.of_nil]
      exact Nat.two_pow_pos 64
    | cons first items =>
      rw [(Bytes.toLink_eq_some.mp h.free.of_cons.1).1]
      obtain ⟨block, hmem, hof⟩ := (h.slots first List.mem_cons_self).exists h.index
      have hin := hof.within (Nat.le_refl _)
      have hplaced := (h.placed block hmem).2
      omega
  have hkept : ∀ x, Extent.Apart ⟨x, 8⟩ ⟨item.start, psize.toNat⟩ →
      (s.memory.bytes.store 8 item.start s.allocator.freeItems).next 8 x =
        s.memory.bytes.next 8 x := by
    intro x hapart
    apply Bytes.next_congr
    intro a hlow hhigh
    apply Bytes.store_of_not
    unfold Extent.Apart at hapart
    dsimp only at hapart
    omega
  have hne : item.start ≠ 0 := by
    obtain ⟨block, _, i, _, heq⟩ := hslot.exists h.index
    omega
  constructor
  · exact { h with
      size_eq := h.size_eq
      nitems_eq := h.nitems_eq
      index := h.index
      empty := h.empty
      chain := h.chain.congr fun x hx => by
        apply hkept
        have hapart := slot_apart_link h.apart h.index hx hslot
        unfold Extent.Apart at *
        dsimp only at *
        omega
      free := by
        dsimp only [ILMemPool.ilMemPoolFree]
        rw [Bytes.toLink_of_ne hne]
        apply Chain.cons
        rw [Memory.storePtr, Bytes.next, Bytes.load_store hlink]
        refine h.free.congr fun x hx => hkept x ?_
        have hx' : x ≠ item.start := fun heq =>
          (List.nodup_cons.mp honce).1 (heq ▸ List.mem_append_left _ hx)
        have hapart := slot_apart h.apart h.index (h.slots x (List.mem_append_left _ hx)) hslot hx'
        unfold Extent.Apart at *
        dsimp only at *
        omega
      slots := fun x hx => h.slots x (hperm.mem_iff.mpr hx)
      once := honce
      sizes := fun other hother => h.sizes other (List.mem_of_mem_erase hother) }
  · intro other hother hkeeps a hhas
    have hstart : other.start ≠ item.start := fun heq =>
      (List.nodup_cons.mp honce).1 (heq ▸ List.mem_append_right _ (List.mem_map_of_mem hkeeps))
    have hapart := h.live_apart hshape hother hslot hstart
    apply Bytes.store_of_not
    unfold Extent.Apart Extent.Has at *
    dsimp only at *
    omega

/-- The loop frees the blocks of the chain, and takes one round for each. -/
theorem freeBlocks_chain {memory : Memory} {start : Nat} {cells : List Nat}
    (h : Chain (memory.bytes.next 8) (Bytes.toLink start) cells) (fuel : Nat) :
    ILMemPool.freeBlocks fuel memory start = if cells.length ≤ fuel then
      some ⟨memory.bytes, memory.blocks.filter (·.start ∉ cells)⟩ else none := by
  induction cells generalizing memory start fuel with
  | nil =>
    rw [Bytes.toLink_eq_none.mp h.of_nil]
    cases fuel <;> simp [ILMemPool.freeBlocks]
  | cons block cells ih =>
    obtain ⟨hfirst, hrest⟩ := h.of_cons
    obtain ⟨rfl, hne⟩ := Bytes.toLink_eq_some.mp hfirst
    cases fuel with
    | zero => simp [ILMemPool.freeBlocks, hne]
    | succ fuel =>
      have hfreed : Chain ((memory.free start).bytes.next 8)
        (Bytes.toLink (memory.loadPtr start)) cells := hrest
      rw [ILMemPool.freeBlocks, if_neg hne]
      dsimp only
      rw [ih hfreed fuel]
      simp [Memory.free, List.filter_filter, Bool.and_comm]

theorem clear (h : PoolInv size psize nitems s blocks items) (fuel : Nat) {pool : ILMemPool}
    {memory : Memory} (hclear : s.allocator.ilMemPoolClear fuel s.memory = some (pool, memory)) :
    ∃ blocks', PoolInv size psize nitems ⟨pool, memory, []⟩ blocks' [] := by
  unfold ILMemPool.ilMemPoolClear at hclear
  cases blocks with
  | nil =>
    rw [if_neg (not_not.mpr (Bytes.toLink_eq_none.mp h.chain.of_nil))] at hclear
    cases hclear
    exact ⟨[], { h with
      size_eq := h.size_eq
      nitems_eq := h.nitems_eq
      index := h.index
      empty := h.empty
      chain := h.chain
      free := .nil
      slots := fun _ hmem => absurd hmem (List.not_mem_nil)
      once := List.nodup_nil
      sizes := fun _ hmem => absurd hmem (List.not_mem_nil) }⟩
  | cons block blocks =>
    obtain ⟨hfirst, hrest⟩ := h.chain.of_cons
    obtain ⟨hblock, hne⟩ := Bytes.toLink_eq_some.mp hfirst
    have honce := List.nodup_cons.mp h.chain.nodup
    rw [if_pos (hblock ▸ hne), Memory.loadPtr, hblock, freeBlocks_chain hrest,
      Option.map_eq_some_iff] at hclear
    obtain ⟨freed, hfreed, hpair⟩ := hclear
    split_ifs at hfreed
    cases hfreed
    cases hpair
    refine ⟨[block], { h with
      size_eq := h.size_eq
      nitems_eq := h.nitems_eq
      index := Nat.zero_le _
      empty := fun hempty => absurd hempty (List.cons_ne_nil _ _)
      held := ?_
      placed := List.forall_mem_singleton.mpr (h.placed block List.mem_cons_self)
      apart := List.pairwise_singleton _ _
      chain := ?_
      free := .nil
      slots := fun _ hmem => absurd hmem (List.not_mem_nil)
      once := List.nodup_nil
      sizes := fun _ hmem => absurd hmem (List.not_mem_nil) }⟩
    · dsimp only [Memory.storePtr]
      rw [h.held, List.map_cons, List.filter_cons_of_pos (by simpa using honce.1), List.map_singleton,
        List.filter_eq_nil_iff.mpr]
      intro other hother
      obtain ⟨x, hx, rfl⟩ := List.mem_map.mp hother
      simpa using hx
    · rw [Bytes.toLink_of_ne hne]
      apply Chain.cons
      rw [Memory.storePtr, Bytes.next, Bytes.load_store (Nat.two_pow_pos 64)]
      exact .nil

theorem clear_ends (h : PoolInv size psize nitems s blocks items) :
    ∃ fuel cleared, s.allocator.ilMemPoolClear fuel s.memory = some cleared := by
  unfold ILMemPool.ilMemPoolClear
  cases blocks with
  | nil =>
    exact ⟨0, _, if_neg (not_not.mpr (Bytes.toLink_eq_none.mp h.chain.of_nil))⟩
  | cons block blocks =>
    obtain ⟨hfirst, hrest⟩ := h.chain.of_cons
    obtain ⟨hblock, hne⟩ := Bytes.toLink_eq_some.mp hfirst
    have hfreed := freeBlocks_chain hrest blocks.length
    rw [if_pos (Nat.le_refl _), ← hblock] at hfreed
    exact ⟨blocks.length, _, (if_pos (hblock ▸ hne)).trans (congrArg (Option.map _) hfreed)⟩

theorem call (hshape : Shape size psize nitems) (h : PoolInv size psize nitems s blocks items)
    {s' : Holdings ILMemPool} (hcall : PoolCall size s s') :
    (∃ blocks' items', PoolInv size psize nitems s' blocks' items') ∧ s.Untouched s' := by
  cases hcall with
  | alloc system => exact h.alloc hshape system
  | free _ hitem =>
    have hfreed := h.release hshape hitem
    exact ⟨⟨_, _, hfreed.1⟩, hfreed.2⟩
  | clear fuel _ hclear =>
    obtain ⟨blocks', hcleared⟩ := h.clear fuel hclear
    exact ⟨⟨blocks', [], hcleared⟩, fun _ _ hmem => absurd hmem List.not_mem_nil⟩

theorem run (hshape : Shape size psize nitems) (h : PoolInv size psize nitems s blocks items)
    {s' : Holdings ILMemPool} (hrun : Relation.ReflTransGen (PoolStep size) s s') :
    ∃ blocks' items', PoolInv size psize nitems s' blocks' items' := by
  induction hrun with
  | refl => exact ⟨blocks, items, h⟩
  | tail _ hstep ih =>
    obtain ⟨blocks', items', hinv⟩ := ih
    cases hstep with
    | call hcall => exact (hinv.call hshape hcall).1
    | write hwrites => exact ⟨blocks', items', hinv.write hshape hwrites⟩

end PoolInv

/-- A new pool has no block. -/
theorem poolInv_new (size : Nat) (psize nitems : BitVec 32) (bytes : Bytes) :
    PoolInv size psize nitems ⟨⟨psize, nitems, nitems, 0, 0⟩, ⟨bytes, []⟩, []⟩ [] [] where
  size_eq := rfl
  nitems_eq := rfl
  index := Nat.le_refl _
  empty _ := rfl
  held := rfl
  placed _ hmem := absurd hmem List.not_mem_nil
  apart := .nil
  chain := .nil
  free := .nil
  slots _ hmem := absurd hmem List.not_mem_nil
  once := List.nodup_nil
  sizes _ hmem := absurd hmem List.not_mem_nil

/-! ### The sizes that go right -/

/-- A system that gives one block, at address sixteen. -/
def oneBlock : System where
  malloc memory n := if memory.blocks = [] ∧ n ≤ 2 ^ 63 then some (16, memory.bytes) else none
  grants memory n p bytes h := by
    split_ifs at h with hfirst
    cases h
    exact {
      nonzero := by decide
      aligned := Nat.dvd_refl 16
      fits := by omega
      apart := fun block hmem => absurd (hfirst.1 ▸ hmem) List.not_mem_nil
      kept := fun _ _ => rfl }

/-- An item that is longer than a block lies behind a block of no items. -/
theorem not_poolSound_of_lt (size nitems : BitVec 32) (h : 4064 < size.toNat) :
    ¬ PoolSound size nitems := by
  rintro ⟨pool, hinit, hruns⟩
  have hround := toNat_roundSize size
  have hlt := size.isLt
  unfold ILMemPool.ilMemPoolInit at hinit
  dsimp only at hinit
  split_ifs at hinit with hzero hhint
  · have hmax := BitVec.lt_def.mp hhint.2
    rw [BitVec.toNat_udiv] at hmax
    have hpsize : (4064#32).toNat / (roundSize size).toNat = 0 := by
      apply Nat.div_eq_of_lt
      change 4064 < _
      have hne : (roundSize size).toNat ≠ 0 := fun heq => hzero (BitVec.eq_of_toNat_eq heq)
      omega
    omega
  · have hne : (roundSize size).toNat ≠ 0 := fun heq => hzero (BitVec.eq_of_toNat_eq heq)
    have hnone : 4064#32 / roundSize size = 0#32 := by
      apply BitVec.eq_of_toNat_eq
      rw [BitVec.toNat_udiv]
      apply Nat.div_eq_of_lt
      change 4064 < _
      omega
    cases hinit
    rw [hnone] at hruns
    have hsound := (hruns (fun _ => 0) _ (.single (.call (.alloc oneBlock _)))).1
    obtain ⟨block, hblock, hin⟩ := hsound.inside ⟨32, size.toNat⟩ (by
      simp [Holdings.give, ILMemPool.ilMemPoolAllocItem, oneBlock])
    have hblock' : block = ⟨16, 16⟩ := by
      simpa [Holdings.give, ILMemPool.ilMemPoolAllocItem, oneBlock, Memory.storePtr] using hblock
    rw [hblock'] at hin
    dsimp only at hin
    omega

/-- A pool goes right exactly when its items fit into a block. -/
theorem poolSound_iff (size nitems : BitVec 32) :
    PoolSound size nitems ↔ 0 < size.toNat ∧ size.toNat ≤ 4064 := by
  constructor
  · intro h
    by_contra hout
    by_cases hzero : size = 0
    · obtain ⟨pool, hinit, _⟩ := h
      rw [hzero, ilMemPoolInit_eq_none 0 nitems rfl] at hinit
      cases hinit
    · have hne : size.toNat ≠ 0 := fun heq => hzero (BitVec.eq_of_toNat_eq heq)
      exact not_poolSound_of_lt size nitems (by omega) h
  · rintro ⟨hpos, hle⟩
    obtain ⟨psize, nitems', hshape, hinit⟩ := ilMemPoolInit_shape size nitems hpos hle
    refine ⟨_, hinit, fun bytes s hrun => ?_⟩
    obtain ⟨blocks, items, hinv⟩ := (poolInv_new _ psize nitems' bytes).run hshape hrun
    exact ⟨hinv.sound hshape, fun s' hcall => (hinv.call hshape hcall).2, hinv.clear_ends⟩

end Pnet.Support
