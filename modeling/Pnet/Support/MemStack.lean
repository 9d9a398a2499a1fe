import Pnet.Support.MemPool

/-! The memory stack of `support/memstack.c`: items of any size, which are only freed together. -/
namespace Pnet.Support
open Pnet.Lib

structure ILMemStack where
  posn : BitVec 32
  size : BitVec 32
  blocks : Nat
  currSize : BitVec 64
  maxSize : BitVec 64
  extras : Nat

namespace ILMemStack

/-- `pageSize` is what `ILPageAllocSize` returns. -/
def ilMemStackInit (pageSize maxSize : BitVec 64) : ILMemStack :=
  let size := (16384#64 &&& ~~~(pageSize - 1)).setWidth 32
  ⟨size, size, 0, 0, maxSize, 0⟩

/-- The item at the position in the current block. -/
def take (stack : ILMemStack) (memory : Memory) (size : BitVec 32) : Nat × ILMemStack × Memory :=
  (stack.blocks + stack.posn.toNat, { stack with posn := stack.posn + size }, memory)

/-- The item, zero if there is none. -/
def ilMemStackAllocItem (system : System) (stack : ILMemStack) (memory : Memory)
    (size : BitVec 32) : Nat × ILMemStack × Memory :=
  let size := roundSize size
  if size > 1024 then
    if stack.maxSize ≠ 0 ∧ stack.currSize + size.setWidth 64 + 64 > stack.maxSize then
      (0, stack, memory)
    else
      match system.malloc memory (size.toNat + 16) with
      | none => (0, stack, memory)
      | some (ptr, bytes) =>
        let memory : Memory := ⟨bytes, ⟨ptr, size.toNat + 16⟩ :: memory.blocks⟩
        (ptr + 16,
          { stack with currSize := stack.currSize + (size + 64).setWidth 64, extras := ptr },
          memory.storePtr ptr stack.extras)
  else if stack.posn + size > stack.size then
    if stack.maxSize ≠ 0 ∧ stack.currSize ≥ stack.maxSize then (0, stack, memory)
    else
      match system.malloc memory stack.size.toNat with
      | none => (0, stack, memory)
      | some (ptr, bytes) =>
        let memory : Memory := ⟨bytes, ⟨ptr, stack.size.toNat⟩ :: memory.blocks⟩
        let currSize := stack.currSize + stack.size.setWidth 64
        take { stack with posn := 16, blocks := ptr, currSize := currSize }
          (memory.storePtr ptr stack.blocks) size
  else take stack memory size

end ILMemStack

/-! ### Runs -/

/-- The next of the items that are to be allocated. -/
def allocNext (system : System) (s : Holdings ILMemStack) (size : BitVec 32) :
    Holdings ILMemStack :=
  .give s.live size.toNat (s.allocator.ilMemStackAllocItem system s.memory size)

/-- Items are allocated in this order, and the program writes between the calls. -/
inductive StackStep : List (BitVec 32) × Holdings ILMemStack →
    List (BitVec 32) × Holdings ILMemStack → Prop where
  | alloc (system : System) (size : BitVec 32) (sizes : List (BitVec 32))
      (s : Holdings ILMemStack) : StackStep (size :: sizes, s) (sizes, allocNext system s size)
  | write (sizes : List (BitVec 32)) {s : Holdings ILMemStack} {bytes : Bytes}
      (h : s.Writes bytes) : StackStep (sizes, s) (sizes, s.write bytes)

def newStack (pageSize maxSize : BitVec 64) (bytes : Bytes) : Holdings ILMemStack :=
  ⟨.ilMemStackInit pageSize maxSize, ⟨bytes, []⟩, []⟩

/-- In every run that allocates these items from a new stack: the items are sound, and no call
touches an item. -/
def StackSound (pageSize maxSize : BitVec 64) (sizes : List (BitVec 32)) : Prop :=
  ∀ bytes rest s,
    Relation.ReflTransGen StackStep (sizes, newStack pageSize maxSize bytes) (rest, s) →
      s.Sound ∧ ∀ size ∈ rest.head?, ∀ system, s.Untouched (allocNext system s size)

/-- The sizes that go right. A stack has no blocks of its own when the system's pages are too
long for them. -/
def StackFits (pageSize : BitVec 64) (size : BitVec 32) : Prop :=
  if (pageSize - 1).getLsbD 14 then size = 0 ∨ 1024 < size.toNat
  else 0 < size.toNat ∧ size.toNat ≤ 2 ^ 32 - 16

theorem size_ilMemStackInit (pageSize maxSize : BitVec 64) :
    (ILMemStack.ilMemStackInit pageSize maxSize).size =
      if (pageSize - 1).getLsbD 14 then 0 else 16384 := by
  have hbit : 16384#64 = BitVec.twoPow 64 14 := rfl
  unfold ILMemStack.ilMemStackInit
  dsimp only
  rw [BitVec.and_comm, hbit, BitVec.and_twoPow, BitVec.getLsbD_not]
  cases (pageSize - 1).getLsbD 14 <;> rfl

/-! ### The invariant -/

structure StackInv (size : BitVec 32) (s : Holdings ILMemStack) : Prop where
  sound : s.Sound
  size_eq : s.allocator.size = size
  posn : s.allocator.posn.toNat ≤ size.toNat
  aligned : 16 ∣ s.allocator.posn.toNat
  none : size = 0 → s.allocator.blocks = 0
  room : s.allocator.posn.toNat < size.toNat →
    ⟨s.allocator.blocks, size.toNat⟩ ∈ s.memory.blocks ∧ 16 ∣ s.allocator.blocks ∧
      16 ≤ s.allocator.posn.toNat ∧ ∀ item ∈ s.live,
        item.Apart ⟨s.allocator.blocks + s.allocator.posn.toNat,
          size.toNat - s.allocator.posn.toNat⟩

section Grants

variable {s : Holdings ILMemStack} {n p : Nat} {bytes : Bytes} {item : Extent}

/-- A new block lies apart from the items in use. -/
theorem Holdings.Sound.apart_granted (h : s.Sound) (hgrants : s.memory.Grants n p bytes)
    (hitem : item ∈ s.live) : item.Apart ⟨p, n⟩ := by
  obtain ⟨block, hblock, hin⟩ := h.inside item hitem
  have hapart := hgrants.apart block hblock
  unfold Extent.Apart at *
  dsimp only at *
  omega

/-- Neither the system nor the link word of a new block touches an item. -/
theorem Holdings.Sound.untouched_granted (h : s.Sound) (hgrants : s.memory.Grants n p bytes)
    (hn : 8 ≤ n) (hitem : item ∈ s.live) {a : Nat} (hhas : item.Has a) (link : Nat) :
    bytes.store 8 p link a = s.memory.bytes a := by
  have hout := (h.apart_granted hgrants hitem).symm.not_has hhas
  rw [Bytes.store_of_not, hgrants.kept a hout]
  intro hlink
  apply hout
  unfold Extent.Has
  dsimp only
  omega

/-- An item behind the link word of a new block. -/
theorem Holdings.Sound.give (h : s.Sound) (hgrants : s.memory.Grants n p bytes) {size link : Nat}
    (hsize : size + 16 ≤ n) (stack : ILMemStack) :
    Holdings.Sound ⟨stack, Memory.storePtr ⟨bytes, ⟨p, n⟩ :: s.memory.blocks⟩ p link,
      ⟨p + 16, size⟩ :: s.live⟩ where
  inside := by
    intro item hitem
    rcases List.mem_cons.mp hitem with rfl | hitem
    · exact ⟨⟨p, n⟩, List.mem_cons_self, by dsimp only; omega⟩
    · obtain ⟨block, hblock, hin⟩ := h.inside item hitem
      exact ⟨block, List.mem_cons_of_mem _ hblock, hin⟩
  aligned := List.forall_mem_cons.mpr ⟨Nat.dvd_add hgrants.aligned (Nat.dvd_refl 16), h.aligned⟩
  apart := by
    refine List.pairwise_cons.mpr ⟨fun item hitem => ?_, h.apart⟩
    have hapart := h.apart_granted hgrants hitem
    unfold Extent.Apart at *
    dsimp only at *
    omega

end Grants

/-- A size that is not rounded to zero. -/
theorem roundSize_fits (size : BitVec 32) (hpos : 0 < size.toNat)
    (hle : size.toNat ≤ 2 ^ 32 - 16) : size.toNat ≤ (roundSize size).toNat ∧
      0 < (roundSize size).toNat ∧ 16 ∣ (roundSize size).toNat := by
  rw [toNat_roundSize, Nat.mod_eq_of_lt (by omega)]
  exact ⟨by omega, by omega, Nat.dvd_mul_left ..⟩

theorem roundSize_eq_zero {size : BitVec 32} (h : size = 0 ∨ 2 ^ 32 - 16 < size.toNat) :
    roundSize size = 0 := by
  cases h with
  | inl h =>
    rw [h]
    rfl
  | inr h =>
    have hlt := size.isLt
    have hsum : (size.toNat + 15) / 16 * 16 = 2 ^ 32 := by omega
    apply BitVec.eq_of_toNat_eq
    rw [toNat_roundSize, hsum]
    rfl

namespace StackInv

variable {size rounded : BitVec 32} {s : Holdings ILMemStack} {request p : Nat} {bytes : Bytes}

/-- An item in a block of its own. -/
theorem extra (h : StackInv size s) (hgrants : s.memory.Grants (rounded.toNat + 16) p bytes)
    (hrequest : request ≤ rounded.toNat) (currSize : BitVec 64) :
    StackInv size ⟨{ s.allocator with currSize := currSize, extras := p },
      Memory.storePtr ⟨bytes, ⟨p, rounded.toNat + 16⟩ :: s.memory.blocks⟩ p s.allocator.extras,
      ⟨p + 16, request⟩ :: s.live⟩ where
  sound := h.sound.give hgrants (by omega) _
  size_eq := h.size_eq
  posn := h.posn
  aligned := h.aligned
  none := h.none
  room hroom := by
    obtain ⟨hblock, hdvd, hposn, hapart⟩ := h.room hroom
    refine ⟨List.mem_cons_of_mem _ hblock, hdvd, hposn, List.forall_mem_cons.mpr ⟨?_, hapart⟩⟩
    have hle := h.posn
    have hgranted := hgrants.apart _ hblock
    unfold Extent.Apart at *
    dsimp only at *
    omega

/-- The first item of a new block. -/
theorem page (h : StackInv 16384 s) (hgrants : s.memory.Grants (16384#32).toNat p bytes)
    (hrounded : rounded.toNat ≤ 1024) (hdvd : 16 ∣ rounded.toNat)
    (hrequest : request ≤ rounded.toNat) (currSize : BitVec 64) :
    StackInv 16384 ⟨⟨16 + rounded, 16384, p, currSize, s.allocator.maxSize, s.allocator.extras⟩,
      Memory.storePtr ⟨bytes, ⟨p, (16384#32).toNat⟩ :: s.memory.blocks⟩ p s.allocator.blocks,
      ⟨p + 16, request⟩ :: s.live⟩ := by
  have hblock : (16384#32).toNat = 16384 := rfl
  have hposn : (16 + rounded).toNat = 16 + rounded.toNat := by
    rw [BitVec.toNat_add, show BitVec.toNat (16 : BitVec 32) = 16 from rfl]
    omega
  exact {
    sound := h.sound.give hgrants (by omega) _
    size_eq := rfl
    posn := by
      dsimp only
      rw [hposn]
      change _ ≤ 16384
      omega
    aligned := by
      dsimp only
      rw [hposn]
      exact Nat.dvd_add (Nat.dvd_refl 16) hdvd
    none := fun hzero => absurd hzero (by decide)
    room := fun _ => by
      dsimp only
      rw [hposn]
      refine ⟨List.mem_cons_self, hgrants.aligned, by omega, List.forall_mem_cons.mpr
        ⟨.inl (by dsimp only; omega), fun item hitem => ?_⟩⟩
      have hapart := h.sound.apart_granted hgrants hitem
      rw [hblock] at hapart
      change Extent.Apart _ ⟨_, 16384 - _⟩
      unfold Extent.Apart at *
      dsimp only at *
      omega }

/-- The next item of the current block. -/
theorem next (h : StackInv size s) (hpos : 0 < rounded.toNat) (hdvd : 16 ∣ rounded.toNat)
    (hrequest : request ≤ rounded.toNat)
    (hfits : s.allocator.posn.toNat + rounded.toNat ≤ size.toNat) :
    StackInv size ⟨{ s.allocator with posn := s.allocator.posn + rounded }, s.memory,
      ⟨s.allocator.blocks + s.allocator.posn.toNat, request⟩ :: s.live⟩ := by
  obtain ⟨hblock, hblocks, hposn, hapart⟩ := h.room (by omega)
  have hadd : (s.allocator.posn + rounded).toNat = s.allocator.posn.toNat + rounded.toNat := by
    have hlt := size.isLt
    rw [BitVec.toNat_add]
    omega
  exact {
    sound := {
      inside := List.forall_mem_cons.mpr ⟨⟨_, hblock, by dsimp only; omega⟩, h.sound.inside⟩
      aligned := List.forall_mem_cons.mpr ⟨Nat.dvd_add hblocks h.aligned, h.sound.aligned⟩
      apart := by
        refine List.pairwise_cons.mpr ⟨fun item hitem => ?_, h.sound.apart⟩
        have hfree := hapart item hitem
        unfold Extent.Apart at *
        dsimp only at *
        omega }
    size_eq := h.size_eq
    posn := by
      dsimp only
      omega
    aligned := by
      dsimp only
      rw [hadd]
      exact Nat.dvd_add h.aligned hdvd
    none := h.none
    room := fun _ => by
      dsimp only
      rw [hadd]
      refine ⟨hblock, hblocks, by omega, List.forall_mem_cons.mpr
        ⟨.inl (by dsimp only; omega), fun item hitem => ?_⟩⟩
      have hfree := hapart item hitem
      unfold Extent.Apart at *
      dsimp only at *
      omega }

theorem alloc_big (h : StackInv size s) {request : BitVec 32}
    (hbig : 1024 < (roundSize request).toNat) (hrequest : request.toNat ≤ (roundSize request).toNat)
    (system : System) :
    StackInv size (allocNext system s request) ∧ s.Untouched (allocNext system s request) := by
  have hrefused : StackInv size (.give s.live request.toNat (0, s.allocator, s.memory)) ∧
      s.Untouched (.give s.live request.toNat (0, s.allocator, s.memory)) :=
    ⟨h, fun _ _ _ _ _ => rfl⟩
  have hlt : roundSize request > 1024 := BitVec.lt_def.mpr hbig
  unfold allocNext ILMemStack.ilMemStackAllocItem
  rw [if_pos hlt]
  split_ifs with hlimit
  · exact hrefused
  · cases hmalloc : system.malloc s.memory ((roundSize request).toNat + 16) with
    | none => exact hrefused
    | some granted =>
      obtain ⟨ptr, bytes⟩ := granted
      have hgrants := system.grants _ _ _ _ hmalloc
      rw [Holdings.give, if_neg (Nat.succ_ne_zero _)]
      exact ⟨h.extra hgrants hrequest _, fun item hitem _ a hhas =>
        h.sound.untouched_granted hgrants (by omega) hitem hhas _⟩

theorem alloc_small (h : StackInv 16384 s) {request : BitVec 32}
    (hpos : 0 < (roundSize request).toNat) (hsmall : (roundSize request).toNat ≤ 1024)
    (hdvd : 16 ∣ (roundSize request).toNat) (hrequest : request.toNat ≤ (roundSize request).toNat)
    (system : System) :
    StackInv 16384 (allocNext system s request) ∧ s.Untouched (allocNext system s request) := by
  have hrefused : StackInv 16384 (.give s.live request.toNat (0, s.allocator, s.memory)) ∧
      s.Untouched (.give s.live request.toNat (0, s.allocator, s.memory)) :=
    ⟨h, fun _ _ _ _ _ => rfl⟩
  have hnot : ¬ roundSize request > 1024 := fun hlt => by
    have hlt' : 1024 < (roundSize request).toNat := BitVec.lt_def.mp hlt
    omega
  have hposn : s.allocator.posn.toNat ≤ 16384 := h.posn
  have hadd : (s.allocator.posn + roundSize request).toNat =
      s.allocator.posn.toNat + (roundSize request).toNat := by
    rw [BitVec.toNat_add]
    omega
  unfold allocNext ILMemStack.ilMemStackAllocItem
  rw [if_neg hnot, h.size_eq]
  split_ifs with hfull hlimit
  · exact hrefused
  · cases hmalloc : system.malloc s.memory (16384 : BitVec 32).toNat with
    | none => exact hrefused
    | some granted =>
      obtain ⟨ptr, bytes⟩ := granted
      have hgrants := system.grants _ _ _ _ hmalloc
      have hitem : ¬ ptr + (16 : BitVec 32).toNat = 0 := Nat.succ_ne_zero _
      dsimp only [ILMemStack.take]
      rw [Holdings.give, if_neg hitem]
      exact ⟨h.page hgrants hsmall hdvd hrequest _, fun item hitem _ a hhas =>
        h.sound.untouched_granted hgrants (by decide) hitem hhas _⟩
  · have hfits : s.allocator.posn.toNat + (roundSize request).toNat ≤ 16384 := by
      rw [← hadd]
      exact Nat.le_of_not_lt fun hlt => hfull (BitVec.lt_def.mpr hlt)
    have hroom := h.room (show _ < 16384 by omega)
    have hitem : ¬ s.allocator.blocks + s.allocator.posn.toNat = 0 := by omega
    rw [Holdings.give, ILMemStack.take, if_neg hitem]
    exact ⟨h.next hpos hdvd hrequest hfits, fun _ _ _ _ _ => rfl⟩

/-- A stack without blocks of its own gives out no item of no bytes. -/
theorem alloc_none (h : StackInv 0 s) {request : BitVec 32} (hzero : roundSize request = 0)
    (system : System) :
    StackInv 0 (allocNext system s request) ∧ s.Untouched (allocNext system s request) := by
  have hposn : s.allocator.posn = 0 := BitVec.eq_of_toNat_eq (Nat.le_zero.mp h.posn)
  have hnext : allocNext system s request = s := by
    have hsize := h.size_eq
    have hblocks := h.none rfl
    obtain ⟨⟨posn, size, blocks, currSize, maxSize, extras⟩, memory, live⟩ := s
    dsimp only at hposn hsize hblocks
    rw [hposn, hsize, hblocks]
    unfold allocNext ILMemStack.ilMemStackAllocItem
    rw [hzero]
    rfl
  rw [hnext]
  exact ⟨h, fun _ _ _ _ _ => rfl⟩

theorem alloc {pageSize : BitVec 64}
    (h : StackInv (if (pageSize - 1).getLsbD 14 then 0 else 16384) s) {request : BitVec 32}
    (hfits : StackFits pageSize request) (system : System) :
    StackInv (if (pageSize - 1).getLsbD 14 then 0 else 16384) (allocNext system s request) ∧
      s.Untouched (allocNext system s request) := by
  unfold StackFits at hfits
  cases hpage : (pageSize - 1).getLsbD 14 with
  | true =>
    rw [hpage] at h hfits
    by_cases hzero : request = 0 ∨ 2 ^ 32 - 16 < request.toNat
    · exact h.alloc_none (roundSize_eq_zero hzero) system
    · have hlow : 1024 < request.toNat := hfits.resolve_left fun heq => hzero (.inl heq)
      have hround := roundSize_fits request (by omega) (by omega)
      exact h.alloc_big (by omega) hround.1 system
  | false =>
    rw [hpage] at h hfits
    have hround := roundSize_fits _ hfits.1 hfits.2
    by_cases hbig : 1024 < (roundSize request).toNat
    · exact h.alloc_big hbig hround.1 system
    · exact h.alloc_small hround.2.1 (by omega) hround.2.2 hround.1 system

theorem write (h : StackInv size s) (bytes : Bytes) : StackInv size (s.write bytes) :=
  { h with
    sound := { h.sound with
      inside := h.sound.inside
      aligned := h.sound.aligned
      apart := h.sound.apart }
    size_eq := h.size_eq
    posn := h.posn
    aligned := h.aligned
    none := h.none
    room := h.room }

/-- The items of a run that are still to be allocated go right, as the others did. -/
theorem run {pageSize : BitVec 64} {sizes rest : List (BitVec 32)} {s' : Holdings ILMemStack}
    (h : StackInv (if (pageSize - 1).getLsbD 14 then 0 else 16384) s)
    (hfits : ∀ size ∈ sizes, StackFits pageSize size)
    (hrun : Relation.ReflTransGen StackStep (sizes, s) (rest, s')) :
    StackInv (if (pageSize - 1).getLsbD 14 then 0 else 16384) s' ∧
      ∀ size ∈ rest, StackFits pageSize size := by
  generalize hstop : (rest, s') = stop at hrun
  induction hrun generalizing rest s' with
  | refl =>
    cases hstop
    exact ⟨h, hfits⟩
  | tail _ hstep ih =>
    cases hstep with
    | alloc system size sizes s =>
      cases hstop
      have hprev := ih rfl
      have hhead := List.forall_mem_cons.mp hprev.2
      exact ⟨(hprev.1.alloc hhead.1 system).1, hhead.2⟩
    | write sizes hwrites =>
      cases hstop
      have hprev := ih rfl
      exact ⟨hprev.1.write _, hprev.2⟩

end StackInv

theorem stackInv_new (pageSize maxSize : BitVec 64) (bytes : Bytes) :
    StackInv (if (pageSize - 1).getLsbD 14 then 0 else 16384)
      (newStack pageSize maxSize bytes) := by
  rw [← size_ilMemStackInit pageSize maxSize]
  exact {
    sound := ⟨fun _ hmem => absurd hmem List.not_mem_nil,
      fun _ hmem => absurd hmem List.not_mem_nil, .nil⟩
    size_eq := rfl
    posn := Nat.le_refl _
    aligned := by
      change 16 ∣ (ILMemStack.ilMemStackInit pageSize maxSize).size.toNat
      rw [size_ilMemStackInit]
      split_ifs
      · exact Nat.dvd_zero 16
      · exact ⟨1024, rfl⟩
    none := fun _ => rfl
    room := fun hroom => absurd hroom (Nat.lt_irrefl _) }

/-! ### The sizes that go right -/

/-- A system that is out of memory. -/
def exhausted : System where
  malloc _ _ := none
  grants _ _ _ _ h := nomatch h

theorem ilMemStackAllocItem_exhausted (stack : ILMemStack) (memory : Memory) (size : BitVec 32)
    (h : roundSize size > 1024 ∨ stack.posn + roundSize size > stack.size) :
    stack.ilMemStackAllocItem exhausted memory size = (0, stack, memory) := by
  unfold ILMemStack.ilMemStackAllocItem
  dsimp only [exhausted]
  split_ifs with hbig _ hfull
  · rfl
  · rfl
  · rfl
  · rfl
  · exact absurd (h.resolve_left hbig) hfull

section New

variable (pageSize maxSize : BitVec 64) (bytes : Bytes)

theorem newStack_of_long (hpage : (pageSize - 1).getLsbD 14 = true) :
    newStack pageSize maxSize bytes = ⟨⟨0, 0, 0, 0, maxSize, 0⟩, ⟨bytes, []⟩, []⟩ := by
  have hsize := size_ilMemStackInit pageSize maxSize
  rw [if_pos hpage] at hsize
  change Holdings.mk (ILMemStack.mk (ILMemStack.ilMemStackInit pageSize maxSize).size
    (ILMemStack.ilMemStackInit pageSize maxSize).size 0 0 maxSize 0) ⟨bytes, []⟩ [] = _
  rw [hsize]

theorem newStack_of_short (hpage : (pageSize - 1).getLsbD 14 = false) :
    newStack pageSize maxSize bytes = ⟨⟨16384, 16384, 0, 0, maxSize, 0⟩, ⟨bytes, []⟩, []⟩ := by
  have hsize := size_ilMemStackInit pageSize maxSize
  rw [if_neg (Bool.not_eq_true _ ▸ hpage)] at hsize
  change Holdings.mk (ILMemStack.mk (ILMemStack.ilMemStackInit pageSize maxSize).size
    (ILMemStack.ilMemStackInit pageSize maxSize).size 0 0 maxSize 0) ⟨bytes, []⟩ [] = _
  rw [hsize]

variable {size : BitVec 32}

/-- An item that the system has no memory for leaves a new stack as it is. -/
theorem allocNext_exhausted (hfits : StackFits pageSize size) :
    allocNext exhausted (newStack pageSize maxSize bytes) size =
      newStack pageSize maxSize bytes := by
  unfold StackFits at hfits
  cases hpage : (pageSize - 1).getLsbD 14 with
  | true =>
    rw [hpage] at hfits
    rw [newStack_of_long pageSize maxSize bytes hpage, allocNext]
    by_cases hzero : size = 0 ∨ 2 ^ 32 - 16 < size.toNat
    · unfold ILMemStack.ilMemStackAllocItem
      rw [roundSize_eq_zero hzero]
      rfl
    · have hlow : 1024 < size.toNat := hfits.resolve_left fun heq => hzero (.inl heq)
      have hround := roundSize_fits size (by omega) (by omega)
      rw [ilMemStackAllocItem_exhausted _ _ _
        (.inl (BitVec.lt_def.mpr (hlow.trans_le hround.1)))]
      rfl
  | false =>
    rw [hpage] at hfits
    have hround := roundSize_fits _ hfits.1 hfits.2
    rw [newStack_of_short pageSize maxSize bytes hpage, allocNext]
    by_cases hbig : 1024 < (roundSize size).toNat
    · rw [ilMemStackAllocItem_exhausted _ _ _ (.inl (BitVec.lt_def.mpr hbig))]
      rfl
    · have hfull : (16384 : BitVec 32) + roundSize size > 16384 := by
        apply BitVec.lt_def.mpr
        rw [BitVec.toNat_add]
        change 16384 < (16384 + _) % _
        omega
      rw [ilMemStackAllocItem_exhausted _ _ _ (.inr hfull)]
      rfl

/-- The first item that does not fit lies in no block. -/
theorem not_sound_allocNext (hfits : ¬ StackFits pageSize size) :
    ∃ system, ¬ (allocNext system (newStack pageSize maxSize bytes) size).Sound := by
  unfold StackFits at hfits
  cases hpage : (pageSize - 1).getLsbD 14 with
  | true =>
    rw [hpage] at hfits
    have hpos : size.toNat ≠ 0 := fun heq => hfits (.inl (BitVec.eq_of_toNat_eq heq))
    have hlow : ¬ 1024 < size.toNat := fun hlt => hfits (.inr hlt)
    have hround := roundSize_fits size (by omega) (by omega)
    have hsmall : (roundSize size).toNat ≤ 1024 := by
      rw [toNat_roundSize]
      omega
    refine ⟨oneBlock, fun hsound => ?_⟩
    rw [newStack_of_long pageSize maxSize bytes hpage] at hsound
    have hnext : allocNext oneBlock ⟨⟨0, 0, 0, 0, maxSize, 0⟩, ⟨bytes, []⟩, []⟩ size =
        ⟨⟨16 + roundSize size, 0, 16, 0, maxSize, 0⟩,
          Memory.storePtr ⟨bytes, [⟨16, 0⟩]⟩ 16 0, [⟨32, size.toNat⟩]⟩ := by
      have hbig : ¬ roundSize size > 1024 := fun hlt => by
        have hlt' : 1024 < (roundSize size).toNat := BitVec.lt_def.mp hlt
        omega
      have hfull : (0 : BitVec 32) + roundSize size > 0 := by
        rw [zero_add]
        exact BitVec.lt_def.mpr hround.2.1
      have hlimit : ¬ (maxSize ≠ 0 ∧ (0 : BitVec 64) ≥ maxSize) := by
        rintro ⟨hne, hle⟩
        exact hne (BitVec.eq_of_toNat_eq (Nat.le_zero.mp (BitVec.le_def.mp hle)))
      have hgive : oneBlock.malloc ⟨bytes, []⟩ (0 : BitVec 32).toNat = some (16, bytes) := by
        simp [oneBlock]
      unfold allocNext ILMemStack.ilMemStackAllocItem
      dsimp only
      rw [if_neg hbig, if_pos hfull, if_neg hlimit, hgive]
      rfl
    rw [hnext] at hsound
    obtain ⟨block, hblock, hin⟩ := hsound.inside _ List.mem_cons_self
    obtain rfl := List.mem_singleton.mp hblock
    dsimp only at hin
    omega
  | false =>
    rw [hpage] at hfits
    have hzero : size = 0 ∨ 2 ^ 32 - 16 < size.toNat := by
      by_contra hout
      have hne : size.toNat ≠ 0 := fun heq => hout (.inl (BitVec.eq_of_toNat_eq heq))
      exact hfits ⟨by omega, by omega⟩
    refine ⟨exhausted, fun hsound => ?_⟩
    rw [newStack_of_short pageSize maxSize bytes hpage] at hsound
    have hnext : allocNext exhausted ⟨⟨16384, 16384, 0, 0, maxSize, 0⟩, ⟨bytes, []⟩, []⟩ size =
        ⟨⟨16384, 16384, 0, 0, maxSize, 0⟩, ⟨bytes, []⟩, [⟨16384, size.toNat⟩]⟩ := by
      have hsmall : ¬ (0 : BitVec 32) > 1024 := by decide
      have hroom : ¬ (16384 : BitVec 32) + 0 > 16384 := by decide
      have hitem : 0 + (16384 : BitVec 32).toNat = 16384 := by decide
      unfold allocNext ILMemStack.ilMemStackAllocItem
      rw [roundSize_eq_zero hzero]
      dsimp only [ILMemStack.take]
      rw [if_neg hsmall, if_neg hroom, hitem, Holdings.give]
      dsimp only
      rw [if_neg (by decide), add_zero]
    rw [hnext] at hsound
    obtain ⟨block, hblock, _⟩ := hsound.inside _ List.mem_cons_self
    exact List.not_mem_nil hblock

/-- A memory stack goes right exactly when all its items fit. -/
theorem stackSound_iff (sizes : List (BitVec 32)) :
    StackSound pageSize maxSize sizes ↔ ∀ size ∈ sizes, StackFits pageSize size := by
  constructor
  · intro h
    induction sizes with
    | nil => exact fun _ hmem => absurd hmem List.not_mem_nil
    | cons size sizes ih =>
      have hfits : StackFits pageSize size := by
        by_contra hfits
        obtain ⟨system, hsound⟩ := not_sound_allocNext pageSize maxSize (fun _ => 0) hfits
        exact hsound (h (fun _ => 0) _ _ (.single (.alloc system size sizes _))).1
      refine List.forall_mem_cons.mpr ⟨hfits, ih fun bytes rest s hrun => h bytes rest s ?_⟩
      have hfirst := StackStep.alloc exhausted size sizes (newStack pageSize maxSize bytes)
      rw [allocNext_exhausted pageSize maxSize bytes hfits] at hfirst
      exact .head hfirst hrun
  · intro hfits bytes rest s hrun
    obtain ⟨hinv, hrest⟩ := (stackInv_new pageSize maxSize bytes).run hfits hrun
    refine ⟨hinv.sound, fun size hsize system => ?_⟩
    exact (hinv.alloc (hrest size (List.mem_of_mem_head? hsize)) system).2

end New

/-- When pools and memory stacks go right: an item is not empty, and neither longer than a block of
its pool nor rounded to zero. -/
theorem blockAllocators_iff (size nitems : BitVec 32) (pageSize maxSize : BitVec 64)
    (sizes : List (BitVec 32)) :
    (PoolSound size nitems ↔ 0 < size.toNat ∧ size.toNat ≤ 4064) ∧
      (StackSound pageSize maxSize sizes ↔ ∀ size ∈ sizes, StackFits pageSize size) :=
  ⟨poolSound_iff size nitems, stackSound_iff pageSize maxSize sizes⟩

/-- Items of five thousand bytes do not lie in the blocks of their pool. -/
theorem not_poolSound_5000 : ¬ PoolSound 5000 0 :=
  not_poolSound_of_lt 5000 0 (by decide)

end Pnet.Support
