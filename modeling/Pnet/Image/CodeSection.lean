import Mathlib.Tactic.FinCases
import Pnet.Image.MetaIndex
import Pnet.Lib.Worklist

/-! Where `image/pecoff_loader.c` finds the code of an image: what the sections that the runtime
header lists leave of the part of the file that the header is in. -/
namespace Pnet.Image.CodeSection

open Lib

/-! ### Ranges -/

/-- The addresses from `start` to before `stop`. -/
structure ILRange where
  start : Nat
  stop : Nat
deriving DecidableEq, Repr

/-- `IL_MAX_RANGES` -/
def ilMaxRanges : Nat := 16

/-- `end - start`, of `unsigned long` values -/
def ILRange.size (range : ILRange) : Nat := (range.stop + 2 ^ 64 - range.start) % 2 ^ 64

/-- What is left of one of `numRanges` ranges, and the range that is added to them. -/
def subtractStep (start stop numRanges : Nat) (range : ILRange) : ILRange × Option ILRange :=
  if start ≤ range.start ∧ range.start < stop then
    if range.stop ≤ stop then ({ range with start := range.stop }, none)
    else ({ range with start := stop }, none)
  else if start < range.stop ∧ range.stop ≤ stop then
    if start ≤ range.start then ({ range with stop := range.start }, none)
    else ({ range with stop := start }, none)
  else if range.start ≤ start ∧ stop ≤ range.stop then
    if numRanges < ilMaxRanges then ({ range with stop := start }, some ⟨stop, range.stop⟩)
    -- There is no space for the second half.
    else (range, none)
  else (range, none)

def subtractFromRange (ranges : List ILRange) (start stop : Nat) : List ILRange :=
  Worklist.scan (subtractStep start stop) ilMaxRanges [] ranges

def trimHighRange (ranges : List ILRange) (address : Nat) : List ILRange :=
  ranges.map fun range => if range.stop = address then { range with start := range.stop } else range

/-- The start and the size; the size is set before the loop only. -/
def findLargestRange : List ILRange → Nat × Nat
  | [] => (0, 0)
  | first :: rest =>
    (rest.foldl (fun start range => if first.size < range.size then range.start else start)
      first.start, first.size)

/-! ### Images -/

structure ILSectionMap where
  virtAddr : ILUInt32
  virtSize : ILUInt32
  realAddr : ILUInt32
deriving DecidableEq, Repr

structure ILImage where
  map : List ILSectionMap
  data : List ILUInt8
  headerAddr : ILUInt32
  headerSize : ILUInt32
deriving DecidableEq, Repr

def ILSectionMap.contains (map : ILSectionMap) (addr : Nat) : Bool :=
  map.virtAddr.toNat ≤ addr && addr < map.virtAddr.toNat + map.virtSize.toNat

def topOfVirtualRange (map : List ILSectionMap) (addr : Nat) : Nat :=
  match map.find? (·.contains addr) with
  | some map => map.virtAddr.toNat + map.virtSize.toNat
  | none => 0

/-- The place of an address in the data. -/
def ilImageMapAddress (image : ILImage) (address : Nat) : Option Nat :=
  (image.map.find? (·.contains address)).map fun map =>
    address - map.virtAddr.toNat + map.realAddr.toNat

/-- A section of the runtime header. -/
structure Section where
  addr : Nat
  size : Nat
deriving DecidableEq, Repr

def readSection (image : ILImage) (posn : Nat) : Except MetaStop Section := do
  let addr ← ilReadUInt32 image.data posn
  let size ← ilReadUInt32 image.data (posn + 4)
  .ok ⟨addr.toNat, size.toNat⟩

/-- Compares bytes until one is different. -/
def matchBytes (data : List ILUInt8) : Nat → List ILUInt8 → Except MetaStop Bool
  | _, [] => .ok true
  | posn, byte :: bytes =>
    match data[posn]? with
    | none => .error .outside
    | some other => if other = byte then matchBytes data (posn + 1) bytes else .ok false

/-- The resources, which begin 128 bytes later than the header says when an early code generator
wrote them. -/
def resourcesSection (image : ILImage) (runtimeHdr addrHighest : Nat) : Except MetaStop Section := do
  if 0 < image.headerSize then do
    let resources ← readSection image (runtimeHdr + 24)
    if resources.addr ≠ 0 ∧ resources.size ≠ 0 ∧ resources.addr < addrHighest ∧
        resources.addr + 136 ≤ addrHighest ∧ 136 ≤ resources.size then
      match ilImageMapAddress image resources.addr with
      | none => .ok resources
      | some probe => do
        if ← matchBytes image.data (probe + 132) [0xCE, 0xCA, 0xEF, 0xBE] then
          .ok ⟨resources.addr + 128, resources.size - 128⟩
        else .ok resources
    else .ok resources
  else .ok ⟨0, 0⟩

/-- A section that is present. -/
def present (listed : Section) : List Section :=
  if listed.addr ≠ 0 ∧ listed.size ≠ 0 then [listed] else []

def metadataSection (image : ILImage) (runtimeHdr : Nat) : Except MetaStop (List Section) := do
  if 0 < image.headerSize then do
    let metadata ← readSection image (runtimeHdr + 8)
    .ok (present metadata)
  else .ok []

/-- The sections of `count` entries of the runtime header. -/
def otherSections (image : ILImage) (runtimeHdr : Nat) : Nat → Nat → Except MetaStop (List Section)
  | 0, _ => .ok []
  | count + 1, headerPosn => do
    let other ← readSection image (runtimeHdr + headerPosn)
    let others ← otherSections image runtimeHdr count (headerPosn + 8)
    .ok (present other ++ others)

/-- The sections that are subtracted, in order; the other ones start at position 32. -/
def listedSections (image : ILImage) (runtimeHdr addrHighest : Nat) :
    Except MetaStop (List Section) := do
  let resources ← resourcesSection image runtimeHdr addrHighest
  let metadata ← metadataSection image runtimeHdr
  let others ← otherSections image runtimeHdr ((image.headerSize.toNat - 32) / 8) 32
  .ok (resources :: metadata ++ others)

def subtractAll (ranges : List ILRange) (sections : List Section) : List ILRange :=
  sections.foldl (fun ranges listed =>
    subtractFromRange ranges listed.addr (listed.addr + listed.size)) ranges

/-- The lowest and the highest address that the code may have. -/
def initialRange (image : ILImage) : ILRange :=
  let addrLowest := image.headerAddr.toNat + image.headerSize.toNat
  ⟨addrLowest, topOfVirtualRange image.map addrLowest⟩

/-- What is reported for the ranges that are left: everything, if nothing is. -/
def codeSection (initial : ILRange) (ranges : List ILRange) : Option (Nat × ILUInt32) :=
  let (addr, size) := findLargestRange (trimHighRange ranges initial.stop)
  let (addr, size) := if size = 0 then (initial.start, initial.size) else (addr, size)
  if size ≠ 0 then some (addr, BitVec.ofNat 32 size) else none

/-- `_ILImageGetSection`, for `IL_SECTION_CODE` -/
def ilImageGetSection (image : ILImage) : Except MetaStop (Option (Nat × ILUInt32)) :=
  match ilImageMapAddress image image.headerAddr.toNat with
  | none => .ok none
  | some runtimeHdr => do
    let initial := initialRange image
    let sections ← listedSections image runtimeHdr initial.stop
    .ok (codeSection initial (subtractAll [initial] sections))

end Pnet.Image.CodeSection

/-! ### What is marked

The ranges that subtracting leaves hold exactly the bytes outside all sections, as long as there
is space for them. The largest of them is found only when it is the first. -/
namespace Pnet.Image.CodeSection

open Lib

def ILRange.Contains (range : ILRange) (addr : Nat) : Prop :=
  range.start ≤ addr ∧ addr < range.stop

def Section.Contains (listed : Section) (addr : Nat) : Prop :=
  listed.addr ≤ addr ∧ addr < listed.addr + listed.size

abbrev Covers (ranges : List ILRange) (addr : Nat) : Prop :=
  Worklist.Covers ILRange.Contains ranges addr

/-! ### Space -/

/-- What is subtracted lies inside the range, so that two ranges are left. -/
def Splits (start stop : Nat) (range : ILRange) : Prop :=
  ¬ (start ≤ range.start ∧ range.start < stop) ∧ ¬ (start < range.stop ∧ range.stop ≤ stop) ∧
    range.start ≤ start ∧ stop ≤ range.stop

/-- Every range that has to be split can be. -/
def HasSpace (ranges : List ILRange) (listed : Section) : Prop :=
  ∀ visit ∈ Worklist.visited (subtractStep listed.addr (listed.addr + listed.size)) ilMaxRanges []
    ranges, Splits listed.addr (listed.addr + listed.size) visit.2 → visit.1 < ilMaxRanges

/-- The list of ranges does not run out of its entries. -/
def HasSpaces : List ILRange → List Section → Prop
  | _, [] => True
  | ranges, listed :: sections => HasSpace ranges listed ∧
      HasSpaces (subtractFromRange ranges listed.addr (listed.addr + listed.size)) sections

/-! ### Subtraction -/

section Step

variable {start stop numRanges : Nat} {range : ILRange}

theorem lt_of_isSome_subtractStep (h : (subtractStep start stop numRanges range).2.isSome) :
    numRanges < ilMaxRanges := by
  by_contra hfull
  rw [subtractStep] at h
  split_ifs at h <;> cases h

theorem removes_subtractStep (hspace : Splits start stop range → numRanges < ilMaxRanges)
    (hle : start ≤ stop) : Worklist.Removes ILRange.Contains (fun addr => start ≤ addr ∧ addr < stop)
      range (subtractStep start stop numRanges range) := by
  have hsplits := hspace
  rw [Splits] at hsplits
  rw [subtractStep]
  constructor
  · intro addr hout
    split_ifs <;> simp only [ILRange.Contains] <;> omega
  · intro addr hout
    split_ifs <;>
      simp only [Option.toList_none, Option.toList_some, Worklist.covers_cons,
        Worklist.covers_nil, ILRange.Contains, or_false] <;> omega

/-- A range that ends below its start ends at the top. -/
structure Proper (top : Nat) (range : ILRange) : Prop where
  start_lt : range.start < 2 ^ 64
  stop_lt : range.stop < 2 ^ 64
  le_or : range.start ≤ range.stop ∨ range.stop = top

theorem proper_subtractStep {top : Nat} (hle : start ≤ stop) (h : Proper top range) :
    Proper top (subtractStep start stop numRanges range).1 ∧
      ∀ extra ∈ (subtractStep start stop numRanges range).2, Proper top extra := by
  obtain ⟨hstart, hstop, hor⟩ := h
  have hproper : ∀ left : ILRange, left.start < 2 ^ 64 ∧ left.stop < 2 ^ 64 ∧
      (left.start ≤ left.stop ∨ left.stop = top) → Proper top left :=
    fun _ h => ⟨h.1, h.2.1, h.2.2⟩
  rw [subtractStep]
  split_ifs <;> refine ⟨hproper _ ?_, fun extra hextra => hproper _ ?_⟩ <;>
    simp only [Option.mem_def, Option.some.injEq, reduceCtorEq] at * <;> grind

end Step

section Subtract

variable {ranges : List ILRange} {sections : List Section}

theorem length_subtractFromRange_le {start stop : Nat} (h : ranges.length ≤ ilMaxRanges) :
    (subtractFromRange ranges start stop).length ≤ ilMaxRanges :=
  Worklist.length_scan_le lt_of_isSome_subtractStep (by simpa using h)

theorem covers_subtractFromRange {listed : Section} (hlength : ranges.length ≤ ilMaxRanges)
    (hspace : HasSpace ranges listed) (addr : Nat) :
    Covers (subtractFromRange ranges listed.addr (listed.addr + listed.size)) addr ↔
      ¬ listed.Contains addr ∧ Covers ranges addr := by
  apply Worklist.covers_scan lt_of_isSome_subtractStep
  · intro visit hvisit
    exact removes_subtractStep (hspace visit hvisit) (Nat.le_add_right _ _)
  · simpa using hlength
  · simp
  · intro addr _
    exact Worklist.covers_nil

/-- The ranges hold exactly the bytes outside all sections. -/
theorem covers_subtractAll (hlength : ranges.length ≤ ilMaxRanges)
    (hspaces : HasSpaces ranges sections) (addr : Nat) :
    Covers (subtractAll ranges sections) addr ↔
      Covers ranges addr ∧ ∀ listed ∈ sections, ¬ listed.Contains addr := by
  induction sections generalizing ranges with
  | nil => simp [subtractAll]
  | cons listed sections ih =>
    obtain ⟨hspace, hspaces⟩ := hspaces
    have hfirst := covers_subtractFromRange hlength hspace addr
    have hrest := ih (length_subtractFromRange_le hlength) hspaces
    rw [List.forall_mem_cons]
    change Covers (subtractAll _ sections) addr ↔ _
    rw [hrest, hfirst]
    tauto

theorem proper_subtractAll {top : Nat} (hranges : ∀ range ∈ ranges, Proper top range) :
    ∀ range ∈ subtractAll ranges sections, Proper top range := by
  induction sections generalizing ranges with
  | nil => exact hranges
  | cons listed sections ih =>
    apply ih
    refine Worklist.all_scan (Proper top) ?_ nofun hranges
    intro numRanges range hrange
    exact proper_subtractStep (Nat.le_add_right _ _) hrange

end Subtract

/-! ### The largest range -/

/-- The start and the size of a largest range. -/
def Largest (ranges : List ILRange) (result : Nat × Nat) : Prop :=
  ∃ range ∈ ranges, result = (range.start, range.size) ∧ ∀ other ∈ ranges, other.size ≤ range.size

/-- No range is larger than the first. -/
def FirstLargest (ranges : List ILRange) : Prop :=
  ∃ first, ranges.head? = some first ∧ ∀ range ∈ ranges, range.size ≤ first.size

theorem largest_findLargestRange_iff (ranges : List ILRange) :
    Largest ranges (findLargestRange ranges) ↔ FirstLargest ranges := by
  cases ranges with
  | nil => simp [Largest, FirstLargest]
  | cons first rest =>
    constructor
    · rintro ⟨range, -, hresult, hlargest⟩
      refine ⟨first, rfl, fun other hother => ?_⟩
      have hsize : first.size = range.size := congrArg Prod.snd hresult
      rw [hsize]
      exact hlargest other hother
    · rintro ⟨range, hrange, hlargest⟩
      obtain rfl := Option.some.inj hrange
      refine ⟨first, List.mem_cons_self, ?_, hlargest⟩
      have hstart : rest.foldl (fun start range =>
          if first.size < range.size then range.start else start) first.start = first.start := by
        have hrest : ∀ range ∈ rest, ¬ first.size < range.size := fun range hmem =>
          Nat.not_lt.mpr (hlargest range (List.mem_cons_of_mem _ hmem))
        clear hlargest hrange
        induction rest with
        | nil => rfl
        | cons second rest ih =>
          rw [List.foldl_cons, if_neg (hrest second List.mem_cons_self)]
          exact ih fun range hmem => hrest range (List.mem_cons_of_mem _ hmem)
      rw [findLargestRange, hstart]

/-! ### The code -/

/-- The ranges that the largest one is sought among. -/
def leftRanges (image : ILImage) (sections : List Section) : List ILRange :=
  trimHighRange (subtractAll [initialRange image] sections) (initialRange image).stop

structure Sound (image : ILImage) (sections : List Section) : Prop where
  covers : ∀ addr, Covers (subtractAll [initialRange image] sections) addr ↔
    (initialRange image).Contains addr ∧ ∀ listed ∈ sections, ¬ listed.Contains addr
  largest : Largest (leftRanges image sections) (findLargestRange (leftRanges image sections))
  noOverlap : ∀ {addr : Nat} {size : ILUInt32}, ilImageGetSection image = .ok (some (addr, size)) →
    ∀ listed ∈ sections, ∀ byte, listed.Contains byte → addr ≤ byte → byte < addr + size.toNat →
      ∀ other, ¬ Covers (leftRanges image sections) other

section Left

variable {ranges : List ILRange} {top : Nat}

/-- A range that is left is one that was not trimmed, or it is empty. -/
theorem mem_trimHighRange {range : ILRange} (h : range ∈ trimHighRange ranges top) :
    range ∈ ranges ∧ range.stop ≠ top ∨ range.start = range.stop ∧ ∃ old ∈ ranges,
      range.stop = old.stop := by
  obtain ⟨old, hold, rfl⟩ := List.mem_map.mp h
  by_cases htop : old.stop = top
  · rw [if_pos htop]
    exact Or.inr ⟨rfl, old, hold, rfl⟩
  · rw [if_neg htop]
    exact Or.inl ⟨hold, htop⟩

theorem covers_of_trimHighRange {addr : Nat} (h : Covers (trimHighRange ranges top) addr) :
    Covers ranges addr := by
  obtain ⟨range, hrange, hcontains⟩ := h
  rcases mem_trimHighRange hrange with ⟨hmem, -⟩ | ⟨heq, -⟩
  · exact ⟨range, hmem, hcontains⟩
  · have hstart := hcontains.1
    have hstop := hcontains.2
    omega

theorem size_of_trimHighRange (hranges : ∀ range ∈ ranges, Proper top range) {range : ILRange}
    (h : range ∈ trimHighRange ranges top) : range.stop = range.start + range.size := by
  have hle : range.start ≤ range.stop ∧ range.stop < 2 ^ 64 := by
    rcases mem_trimHighRange h with ⟨hmem, hne⟩ | ⟨heq, old, hold, hstop⟩
    · have hproper := hranges range hmem
      exact ⟨hproper.le_or.resolve_right hne, hproper.stop_lt⟩
    · have hlt := (hranges old hold).stop_lt
      omega
  rw [ILRange.size]
  omega

theorem codeSection_of_pos {initial : ILRange} {start count addr : Nat} {size : ILUInt32}
    (hresult : findLargestRange (trimHighRange ranges initial.stop) = (start, count))
    (hpos : 0 < count) (hcode : codeSection initial ranges = some (addr, size)) :
    start = addr ∧ BitVec.ofNat 32 count = size := by
  have hne : count ≠ 0 := Nat.pos_iff_ne_zero.mp hpos
  simp only [codeSection, hresult, if_neg hne, if_pos hne] at hcode
  exact Prod.mk.inj (Option.some.inj hcode)

/-- What is reported when the first range is a largest one. -/
theorem codeSection_noOverlap {initial : ILRange}
    (hranges : ∀ range ∈ ranges, Proper initial.stop range)
    (hfirst : FirstLargest (trimHighRange ranges initial.stop)) {addr : Nat} {size : ILUInt32}
    (hcode : codeSection initial ranges = some (addr, size)) {byte : Nat} (haddr : addr ≤ byte)
    (hbyte : byte < addr + size.toNat) (hnot : ¬ Covers ranges byte) (other : Nat) :
    ¬ Covers (trimHighRange ranges initial.stop) other := by
  obtain ⟨range, hrange, hresult, hlargest⟩ := (largest_findLargestRange_iff _).mpr hfirst
  have hsize := size_of_trimHighRange hranges hrange
  rcases Nat.eq_zero_or_pos range.size with hzero | hpos
  · rintro ⟨left, hleft, hstart, hstop⟩
    have hsize' := size_of_trimHighRange hranges hleft
    have hle := hlargest left hleft
    omega
  · obtain ⟨rfl, rfl⟩ := codeSection_of_pos hresult hpos hcode
    refine absurd (covers_of_trimHighRange ⟨range, hrange, haddr, ?_⟩) hnot
    rw [BitVec.toNat_ofNat] at hbyte
    have hmod := Nat.mod_le range.size (2 ^ 32)
    omega

end Left

theorem proper_initialRange (image : ILImage) :
    Proper (initialRange image).stop (initialRange image) := by
  have hstart : (initialRange image).start < 2 ^ 64 := by
    have haddr := image.headerAddr.isLt
    have hsize := image.headerSize.isLt
    simp only [initialRange]
    omega
  refine ⟨hstart, ?_, Or.inr rfl⟩
  simp only [initialRange, topOfVirtualRange]
  split
  · rename_i map _
    have haddr := map.virtAddr.isLt
    have hsize := map.virtSize.isLt
    omega
  · omega

theorem largest_sound_iff {image : ILImage} {runtimeHdr : Nat} {sections : List Section}
    (hhdr : ilImageMapAddress image image.headerAddr.toNat = some runtimeHdr)
    (hsections : listedSections image runtimeHdr (initialRange image).stop = .ok sections)
    (hspaces : HasSpaces [initialRange image] sections) :
    Sound image sections ↔ FirstLargest (leftRanges image sections) := by
  have hcovers : ∀ addr, Covers (subtractAll [initialRange image] sections) addr ↔
      (initialRange image).Contains addr ∧ ∀ listed ∈ sections, ¬ listed.Contains addr := by
    intro addr
    rw [covers_subtractAll (Nat.le_of_ble_eq_true rfl) hspaces, Covers, Worklist.covers_cons]
    have hnil : ¬ Worklist.Covers ILRange.Contains [] addr := Worklist.covers_nil
    tauto
  constructor
  · intro hsound
    exact (largest_findLargestRange_iff _).mp hsound.largest
  · intro hfirst
    refine ⟨hcovers, (largest_findLargestRange_iff _).mpr hfirst, ?_⟩
    intro addr size hcode listed hlisted byte hcontains haddr hbyte
    have hproper : ∀ range ∈ subtractAll [initialRange image] sections,
        Proper (initialRange image).stop range := by
      apply proper_subtractAll
      intro range hrange
      rw [List.mem_singleton.mp hrange]
      exact proper_initialRange image
    have hcode' : codeSection (initialRange image)
        (subtractAll [initialRange image] sections) = some (addr, size) := by
      simp only [ilImageGetSection, hhdr, hsections] at hcode
      exact Except.ok.inj hcode
    apply codeSection_noOverlap hproper hfirst hcode' haddr hbyte
    intro hbyte'
    exact ((hcovers byte).mp hbyte').2 listed hlisted hcontains

/-! ### A small range before the code -/

instance (start stop : Nat) (range : ILRange) : Decidable (Splits start stop range) :=
  inferInstanceAs (Decidable (_ ∧ _))

instance (ranges : List ILRange) (listed : Section) : Decidable (HasSpace ranges listed) :=
  inferInstanceAs (Decidable (∀ visit ∈ Worklist.visited _ _ _ _, _ → _))

instance decidableHasSpaces : (ranges : List ILRange) → (sections : List Section) →
    Decidable (HasSpaces ranges sections)
  | _, [] => inferInstanceAs (Decidable True)
  | ranges, listed :: sections =>
    have := decidableHasSpaces
      (subtractFromRange ranges listed.addr (listed.addr + listed.size)) sections
    inferInstanceAs (Decidable (_ ∧ _))

/-- Resources shortly after the header, and the metadata after the code. -/
def smallFirst : ILImage where
  map := [⟨0x1000, 0x3000, 0⟩]
  data := List.replicate 8 0 ++ [0, 0x20, 0, 0, 0, 0x01, 0, 0] ++ List.replicate 8 0 ++
    [0x40, 0x10, 0, 0, 0x10, 0, 0, 0] ++ List.replicate 16 0
  headerAddr := 0x1000
  headerSize := 48

def smallFirstSections : List Section := [⟨0x1040, 0x10⟩, ⟨0x2000, 0x100⟩]

theorem largest_sound_iff_smallFirst : Sound smallFirst smallFirstSections ↔
    FirstLargest (leftRanges smallFirst smallFirstSections) :=
  largest_sound_iff (by rfl) (by rfl) (by decide)

/-- The code is said to have the size of the small range. -/
theorem not_sound_smallFirst : ilImageMapAddress smallFirst smallFirst.headerAddr.toNat = some 0 ∧
    listedSections smallFirst 0 (initialRange smallFirst).stop = .ok smallFirstSections ∧
    HasSpaces [initialRange smallFirst] smallFirstSections ∧
    ilImageGetSection smallFirst = .ok (some (0x1050, 0x10)) ∧
    ¬ Sound smallFirst smallFirstSections := by
  have hhdr : ilImageMapAddress smallFirst smallFirst.headerAddr.toNat = some 0 := by rfl
  have hsections : listedSections smallFirst 0 (initialRange smallFirst).stop =
      .ok smallFirstSections := by rfl
  have hcode : codeSection (initialRange smallFirst)
      (subtractAll [initialRange smallFirst] smallFirstSections) = some (0x1050, 0x10) := by
    decide
  refine ⟨hhdr, hsections, by decide, ?_, ?_⟩
  · simp only [ilImageGetSection, hhdr]
    rw [← hcode, hsections]
    rfl
  intro hsound
  obtain ⟨range, hrange, hresult, -⟩ := hsound.largest
  have hleft : leftRanges smallFirst smallFirstSections =
      [⟨0x1030, 0x1040⟩, ⟨0x1050, 0x2000⟩, ⟨0x4000, 0x4000⟩] := by rfl
  rw [hleft] at hrange hresult
  fin_cases hrange <;> exact absurd hresult (by decide)

end Pnet.Image.CodeSection
