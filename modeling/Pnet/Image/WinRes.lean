import Pnet.Image.MetaIndexSound
import Pnet.Lib.Acyclic
import Pnet.Lib.Loop

/-! The parser of a Windows resource section, `image/winres_reader.c`. A pointer into the section is
an offset in it, a read outside it is an error, and a recursion that goes too deep has no result.
Memory does not run out. -/
namespace Pnet.Image.WinRes

/-- `mapRVA` is `ILImageMapRVA` of the image, with the number of bytes left over. -/
structure ILResourceSection where
  data : List ILUInt8
  mapRVA : ILUInt32 → Option (Nat × Nat)

/-- A directory, or an entry with its data. -/
inductive ILResourceEntry where
  | directory (name : Option (List ILUInt8)) (rva : Nat) (children : List ILResourceEntry)
  | entry (name : Option (List ILUInt8)) (rva : Nat) (data : Option Nat) (length : Nat)
deriving Repr

/-- A result within a depth of recursion, unless a read is outside the section. -/
abbrev Parsed (α : Type) := ExceptT MetaStop Option α

def readByte (sec : ILResourceSection) (posn : Nat) : Except MetaStop ILUInt8 :=
  match sec.data[posn]? with
  | some byte => .ok byte
  | none => .error .outside

/-- The low bytes of the characters of a name. -/
def readResourceName (sec : ILResourceSection) (offset : ILUInt32) :
    Except MetaStop (List ILUInt8) :=
  if sec.data.length ≤ offset.toNat ∨ sec.data.length < offset.toNat + 2 then .ok []
  else do
    let slen ← ilReadUInt16 sec.data offset.toNat
    if sec.data.length - (offset.toNat + 2) < slen.toNat * 2 then .ok []
    else (List.range slen.toNat).mapM fun index => readByte sec (offset.toNat + 2 + index * 2)

/-- The decimal digits, where `long` has 64 bits. -/
def resourceNumberToName (number : ILUInt32) : List ILUInt8 :=
  (Nat.toDigits 10 number.toNat).map fun digit => BitVec.ofNat 8 digit.toNat

def parseResourceEntry (sec : ILResourceSection) (offset : Nat)
    (name : Option (List ILUInt8)) : Except MetaStop ILResourceEntry :=
  if sec.data.length ≤ offset ∨ sec.data.length ≤ offset + 16 then
    .ok (.entry name offset none 0)
  else do
    let rva ← ilReadUInt32 sec.data offset
    let length ← ilReadUInt32 sec.data (offset + 4)
    match sec.mapRVA rva with
    | none => .ok (.entry name offset none 0)
    | some (data, leftOver) =>
      if leftOver < length.toNat then .ok (.entry name offset none 0)
      else .ok (.entry name offset (some data) length.toNat)

/-- An entry of a directory, by what its second word says. -/
def parseEntry (sec : ILResourceSection)
    (parseDirectory : Nat → Option (List ILUInt8) → Parsed ILResourceEntry) (rva : ILUInt32)
    (name : List ILUInt8) : Parsed ILResourceEntry :=
  if rva &&& 0x80000000 ≠ 0 then parseDirectory (rva &&& 0x7FFFFFFF).toNat (some name)
  else liftM (parseResourceEntry sec rva.toNat (some name))

/-- One of the two loops over the entries of a directory. It also returns the offset behind them. -/
def parseEntries (sec : ILResourceSection)
    (readName : ILUInt32 → Except MetaStop (List ILUInt8))
    (parseDirectory : Nat → Option (List ILUInt8) → Parsed ILResourceEntry) :
    Nat → Nat → Parsed (List ILResourceEntry × Nat)
  | 0, offset => pure ([], offset)
  | numEntries + 1, offset => do
    if sec.data.length - 8 < offset then pure ([], offset)
    else do
      let name ← readName (← ilReadUInt32 sec.data offset)
      let rva ← ilReadUInt32 sec.data (offset + 4)
      let entry ← parseEntry sec parseDirectory rva name
      let (entries, offset) ← parseEntries sec readName parseDirectory numEntries (offset + 8)
      pure (entry :: entries, offset)

def parseResourceDirectory (sec : ILResourceSection) :
    Nat → Nat → Option (List ILUInt8) → Parsed ILResourceEntry
  | 0, _, _ => none
  | depth + 1, offset, name => do
    if sec.data.length ≤ offset ∨ sec.data.length ≤ offset + 16 then
      pure (.directory name offset [])
    else do
      let numNamedEntries ← ilReadUInt16 sec.data (offset + 12)
      let numIdEntries ← ilReadUInt16 sec.data (offset + 14)
      let (named, next) ← parseEntries sec (readResourceName sec)
        (parseResourceDirectory sec depth) numNamedEntries.toNat (offset + 16)
      let (numbered, _) ← parseEntries sec (fun number => .ok (resourceNumberToName number))
        (parseResourceDirectory sec depth) numIdEntries.toNat next
      pure (.directory name offset (named ++ numbered))

/-- The root directory of the section. -/
def ilResourceSectionCreate (sec : ILResourceSection) (depth : Nat) : Parsed ILResourceEntry :=
  parseResourceDirectory sec depth 0 none

end Pnet.Image.WinRes

/-! ### Safety and termination

The parser of a resource section never reads outside it, and ends exactly when no directory that
the root leads to leads back to itself. -/
namespace Pnet.Image.WinRes

open Lib Relation

variable {sec : ILResourceSection} {offset : Nat}

theorem parsed_bind_ok {α β : Type} (a : α) (f : α → Parsed β) :
    (liftM (Except.ok a : Except MetaStop α) : Parsed α) >>= f = f a := rfl

theorem parsed_bind_some {α β : Type} {x : Parsed α} {a : α} (h : x = some (.ok a))
    (f : α → Parsed β) : x >>= f = f a := by
  rw [h]
  rfl

theorem parsed_bind_none {α β : Type} {x : Parsed α} (h : x = none) (f : α → Parsed β) :
    x >>= f = none := by
  rw [h]
  rfl

theorem exists_readByte {posn : Nat} (h : posn < sec.data.length) :
    ∃ byte, readByte sec posn = .ok byte := by
  rw [readByte, List.getElem?_eq_getElem h]
  exact ⟨_, rfl⟩

theorem exists_mapM {α β ε : Type} {f : α → Except ε β} {as : List α}
    (h : ∀ a ∈ as, ∃ b, f a = .ok b) : ∃ bs, as.mapM f = .ok bs := by
  induction as with
  | nil => exact ⟨[], rfl⟩
  | cons a as ih =>
    obtain ⟨hfirst, hrest⟩ := List.forall_mem_cons.mp h
    obtain ⟨b, hb⟩ := hfirst
    obtain ⟨bs, hbs⟩ := ih hrest
    rw [List.mapM_cons, hb, hbs]
    exact ⟨b :: bs, rfl⟩

theorem exists_readResourceName (sec : ILResourceSection) (offset : ILUInt32) :
    ∃ name, readResourceName sec offset = .ok name := by
  rw [readResourceName]
  split_ifs with hroom
  · exact ⟨_, rfl⟩
  · obtain ⟨slen, hslen⟩ := ilReadUInt16_of_le
      (show offset.toNat + 2 ≤ sec.data.length by omega)
    rw [hslen, ok_bind]
    split_ifs with hlength
    · exact ⟨_, rfl⟩
    · apply exists_mapM
      intro index hindex
      have := List.mem_range.mp hindex
      exact exists_readByte (by omega)

theorem exists_parseResourceEntry (sec : ILResourceSection) (offset : Nat)
    (name : Option (List ILUInt8)) : ∃ entry, parseResourceEntry sec offset name = .ok entry := by
  rw [parseResourceEntry]
  split_ifs with hroom
  · exact ⟨_, rfl⟩
  · obtain ⟨rva, hrva⟩ := ilReadUInt32_of_le (show offset + 4 ≤ sec.data.length by omega)
    obtain ⟨length, hlength⟩ := ilReadUInt32_of_le (show offset + 4 + 4 ≤ sec.data.length by omega)
    rw [hrva, hlength, ok_bind, ok_bind]
    cases sec.mapRVA rva with
    | none => exact ⟨_, rfl⟩
    | some mapped =>
      dsimp only
      split_ifs
      · exact ⟨_, rfl⟩
      · exact ⟨_, rfl⟩

/-! ### Directories -/

/-- The entry at the offset is for the sub-directory. -/
def LeadsTo (sec : ILResourceSection) (offset sub : Nat) : Prop :=
  ∃ rva, ilReadUInt32 sec.data (offset + 4) = .ok rva ∧ rva &&& 0x80000000 ≠ 0 ∧
    sub = (rva &&& 0x7FFFFFFF).toNat

/-- The directory at the offset has an entry in the section for the sub-directory. -/
def SubDirectory (sec : ILResourceSection) (offset sub : Nat) : Prop :=
  ∃ numNamedEntries numIdEntries i, offset + 16 < sec.data.length ∧
    ilReadUInt16 sec.data (offset + 12) = .ok numNamedEntries ∧
    ilReadUInt16 sec.data (offset + 14) = .ok numIdEntries ∧
    i < numNamedEntries.toNat + numIdEntries.toNat ∧
    offset + 16 + 8 * i ≤ sec.data.length - 8 ∧ LeadsTo sec (offset + 16 + 8 * i) sub

/-- A sub-directory has a result when it is good, and else goes too deep. -/
structure Decides (parseDirectory : Nat → Option (List ILUInt8) → Parsed ILResourceEntry)
    (Good : Nat → Prop) : Prop where
  good : ∀ {sub}, Good sub → ∀ name, ∃ dir, parseDirectory sub name = some (.ok dir)
  bad : ∀ {sub}, ¬ Good sub → ∀ name, parseDirectory sub name = none

section Entries

variable {readName : ILUInt32 → Except MetaStop (List ILUInt8)}
  {parseDirectory : Nat → Option (List ILUInt8) → Parsed ILResourceEntry} {Good : Nat → Prop}

/-- So many entries are read, and they lead to good directories only. -/
structure Visited (sec : ILResourceSection) (Good : Nat → Prop) (numEntries offset count : Nat) :
    Prop where
  lt_iff : ∀ i, i < count ↔ i < numEntries ∧ offset + 8 * i ≤ sec.data.length - 8
  good : ∀ i < count, ∀ sub, LeadsTo sec (offset + 8 * i) sub → Good sub

/-- An entry that is read leads to a directory that is not good. -/
def Strays (sec : ILResourceSection) (Good : Nat → Prop) (numEntries offset : Nat) : Prop :=
  ∃ i sub, i < numEntries ∧ offset + 8 * i ≤ sec.data.length - 8 ∧
    LeadsTo sec (offset + 8 * i) sub ∧ ¬ Good sub

theorem Visited.cons {numEntries count : Nat} (hroom : offset ≤ sec.data.length - 8)
    (hgood : ∀ sub, LeadsTo sec offset sub → Good sub)
    (h : Visited sec Good numEntries (offset + 8) count) :
    Visited sec Good (numEntries + 1) offset (count + 1) := by
  constructor
  · intro i
    cases i with
    | zero => omega
    | succ i =>
      have := h.lt_iff i
      omega
  · intro i hi sub hsub
    cases i with
    | zero => exact hgood sub hsub
    | succ i =>
      have hoffset : offset + 8 * (i + 1) = offset + 8 + 8 * i := by omega
      rw [hoffset] at hsub
      exact h.good i (by omega) sub hsub

theorem Strays.cons {numEntries : Nat} (h : Strays sec Good numEntries (offset + 8)) :
    Strays sec Good (numEntries + 1) offset := by
  obtain ⟨i, sub, hi, hle, hsub, hbad⟩ := h
  have hoffset : offset + 8 + 8 * i = offset + 8 * (i + 1) := by omega
  rw [hoffset] at hle hsub
  exact ⟨i + 1, sub, by omega, hle, hsub, hbad⟩

theorem parseEntry_cases (hdir : Decides parseDirectory Good) {rva : ILUInt32}
    (hrva : ilReadUInt32 sec.data (offset + 4) = .ok rva) (name : List ILUInt8) :
    (∃ entry, parseEntry sec parseDirectory rva name = some (.ok entry)) ∧
      (∀ sub, LeadsTo sec offset sub → Good sub) ∨
    parseEntry sec parseDirectory rva name = none ∧ ∃ sub, LeadsTo sec offset sub ∧ ¬ Good sub := by
  rw [parseEntry]
  by_cases hflag : rva &&& 0x80000000 ≠ 0
  · rw [if_pos hflag]
    by_cases hgood : Good (rva &&& 0x7FFFFFFF).toNat
    · refine Or.inl ⟨hdir.good hgood _, ?_⟩
      rintro sub ⟨rva', hrva', -, rfl⟩
      rw [hrva] at hrva'
      cases hrva'
      exact hgood
    · exact Or.inr ⟨hdir.bad hgood _, _, ⟨rva, hrva, hflag, rfl⟩, hgood⟩
  · rw [if_neg hflag]
    obtain ⟨entry, hentry⟩ := exists_parseResourceEntry sec rva.toNat (some name)
    rw [hentry]
    refine Or.inl ⟨⟨entry, rfl⟩, ?_⟩
    rintro sub ⟨rva', hrva', hflag', -⟩
    rw [hrva] at hrva'
    cases hrva'
    exact absurd hflag' hflag

theorem parseEntries_cases (hname : ∀ offset, ∃ name, readName offset = .ok name)
    (hdir : Decides parseDirectory Good) (hroom : 8 ≤ sec.data.length) (numEntries offset : Nat) :
    (∃ entries count, parseEntries sec readName parseDirectory numEntries offset =
      some (.ok (entries, offset + 8 * count)) ∧ Visited sec Good numEntries offset count) ∨
    parseEntries sec readName parseDirectory numEntries offset = none ∧
      Strays sec Good numEntries offset := by
  induction numEntries generalizing offset with
  | zero => exact Or.inl ⟨[], 0, rfl, by simp, by simp⟩
  | succ numEntries ih =>
    rw [parseEntries]
    by_cases hend : sec.data.length - 8 < offset
    · rw [if_pos hend]
      refine Or.inl ⟨[], 0, rfl, ?_, by simp⟩
      intro i
      omega
    · rw [if_neg hend]
      have hle := Nat.le_of_not_lt hend
      obtain ⟨number, hnumber⟩ := ilReadUInt32_of_le (show offset + 4 ≤ sec.data.length by omega)
      obtain ⟨rva, hrva⟩ := ilReadUInt32_of_le (show offset + 4 + 4 ≤ sec.data.length by omega)
      obtain ⟨name, hname⟩ := hname number
      rw [hnumber, parsed_bind_ok, hname, parsed_bind_ok, hrva, parsed_bind_ok]
      rcases parseEntry_cases hdir hrva name with
        ⟨⟨entry, hentry⟩, hgood⟩ | ⟨hnone, sub, hsub, hbad⟩
      · rw [parsed_bind_some hentry]
        rcases ih (offset + 8) with ⟨entries, count, hentries, hvisited⟩ | ⟨hnone, hstrays⟩
        · left
          refine ⟨entry :: entries, count + 1, ?_, hvisited.cons hle hgood⟩
          rw [show offset + 8 * (count + 1) = offset + 8 + 8 * count by omega]
          rw [parsed_bind_some hentries]
          rfl
        · right
          refine ⟨?_, hstrays.cons⟩
          exact parsed_bind_none hnone _
      · right
        exact ⟨parsed_bind_none hnone _, 0, sub, by omega, hle, hsub, hbad⟩

theorem Visited.le {numEntries count : Nat} (h : Visited sec Good numEntries offset count) :
    count ≤ numEntries := by
  have := h.lt_iff numEntries
  omega

theorem Strays.first {numNamedEntries numIdEntries : ILUInt32}
    (hroom : offset + 16 < sec.data.length)
    (hnamed : ilReadUInt16 sec.data (offset + 12) = .ok numNamedEntries)
    (hids : ilReadUInt16 sec.data (offset + 14) = .ok numIdEntries)
    (h : Strays sec Good numNamedEntries.toNat (offset + 16)) :
    ∃ sub, SubDirectory sec offset sub ∧ ¬ Good sub := by
  obtain ⟨i, sub, hi, hle, hsub, hbad⟩ := h
  exact ⟨sub, ⟨_, _, i, hroom, hnamed, hids, by omega, hle, hsub⟩, hbad⟩

theorem Strays.second {numNamedEntries numIdEntries : ILUInt32} {count : Nat}
    (hroom : offset + 16 < sec.data.length)
    (hnamed : ilReadUInt16 sec.data (offset + 12) = .ok numNamedEntries)
    (hids : ilReadUInt16 sec.data (offset + 14) = .ok numIdEntries)
    (hcount : count ≤ numNamedEntries.toNat)
    (h : Strays sec Good numIdEntries.toNat (offset + 16 + 8 * count)) :
    ∃ sub, SubDirectory sec offset sub ∧ ¬ Good sub := by
  obtain ⟨i, sub, hi, hle, hsub, hbad⟩ := h
  have hoffset : offset + 16 + 8 * count + 8 * i = offset + 16 + 8 * (count + i) := by omega
  rw [hoffset] at hle hsub
  exact ⟨sub, ⟨_, _, count + i, hroom, hnamed, hids, by omega, hle, hsub⟩, hbad⟩

/-- The entries of both loops are all that are in the section. -/
theorem good_of_visited {numNamedEntries numIdEntries : ILUInt32} {count rest : Nat}
    (hnamed : ilReadUInt16 sec.data (offset + 12) = .ok numNamedEntries)
    (hids : ilReadUInt16 sec.data (offset + 14) = .ok numIdEntries)
    (h : Visited sec Good numNamedEntries.toNat (offset + 16) count)
    (hrest : Visited sec Good numIdEntries.toNat (offset + 16 + 8 * count) rest)
    {sub : Nat} (hsub : SubDirectory sec offset sub) : Good sub := by
  obtain ⟨numNamed, numIds, i, -, hnamed', hids', hi, hle, hleads⟩ := hsub
  rw [hnamed] at hnamed'
  rw [hids] at hids'
  cases hnamed'
  cases hids'
  by_cases hfirst : i < count
  · exact h.good i hfirst sub hleads
  · have hcount := h.lt_iff count
    have hcount' := h.le
    have hsecond := hrest.lt_iff (i - count)
    have hoffset : offset + 16 + 8 * i = offset + 16 + 8 * count + 8 * (i - count) := by omega
    rw [hoffset] at hleads
    exact hrest.good (i - count) (by omega) sub hleads

end Entries

theorem parseResourceDirectory_cases (sec : ILResourceSection) (depth offset : Nat)
    (name : Option (List ILUInt8)) :
    (∃ dir, parseResourceDirectory sec depth offset name = some (.ok dir)) ∧
      Descent.Within (SubDirectory sec) depth offset ∨
    parseResourceDirectory sec depth offset name = none ∧
      ¬ Descent.Within (SubDirectory sec) depth offset := by
  induction depth generalizing offset name with
  | zero => exact Or.inr ⟨rfl, id⟩
  | succ depth ih =>
    have hdir : Decides (parseResourceDirectory sec depth)
        (Descent.Within (SubDirectory sec) depth) := by
      constructor
      · intro sub hgood name
        rcases ih sub name with h | h
        · exact h.1
        · exact absurd hgood h.2
      · intro sub hbad name
        rcases ih sub name with h | h
        · exact absurd h.2 hbad
        · exact h.1
    rw [parseResourceDirectory]
    by_cases hheader : sec.data.length ≤ offset ∨ sec.data.length ≤ offset + 16
    · rw [if_pos hheader]
      refine Or.inl ⟨⟨_, rfl⟩, ?_⟩
      rintro sub ⟨-, -, -, hroom, -⟩
      omega
    · rw [if_neg hheader]
      have hroom : offset + 16 < sec.data.length := by omega
      have hroom' : 8 ≤ sec.data.length := by omega
      obtain ⟨numNamed, hnamed⟩ := ilReadUInt16_of_le
        (show offset + 12 + 2 ≤ sec.data.length by omega)
      obtain ⟨numIds, hids⟩ := ilReadUInt16_of_le (show offset + 14 + 2 ≤ sec.data.length by omega)
      rw [hnamed, parsed_bind_ok, hids, parsed_bind_ok]
      have hstray : (∃ sub, SubDirectory sec offset sub ∧
          ¬ Descent.Within (SubDirectory sec) depth sub) →
          ¬ Descent.Within (SubDirectory sec) (depth + 1) offset := by
        rintro ⟨sub, hsub, hbad⟩ hwithin
        exact hbad (hwithin sub hsub)
      rcases parseEntries_cases (exists_readResourceName sec) hdir hroom' numNamed.toNat
        (offset + 16) with ⟨named, count, hfirst, hvisited⟩ | ⟨hfirst, hstrays⟩
      · rw [parsed_bind_some hfirst]
        dsimp only
        rcases parseEntries_cases (fun number => ⟨resourceNumberToName number, rfl⟩) hdir
          hroom' numIds.toNat (offset + 16 + 8 * count) with
          ⟨numbered, rest, hsecond, hvisited'⟩ | ⟨hsecond, hstrays⟩
        · left
          rw [parsed_bind_some hsecond]
          exact ⟨⟨_, rfl⟩, fun sub hsub => good_of_visited hnamed hids hvisited hvisited' hsub⟩
        · right
          exact ⟨parsed_bind_none hsecond _, hstray (hstrays.second hroom hnamed hids hvisited.le)⟩
      · right
        exact ⟨parsed_bind_none hfirst _, hstray (hstrays.first hroom hnamed hids)⟩

/-- Only so many offsets are those of sub-directories. -/
theorem finite_reach (sec : ILResourceSection) (offset : Nat) :
    {sub | ReflTransGen (SubDirectory sec) offset sub}.Finite := by
  apply ((Set.finite_lt_nat (2 ^ 32)).union (Set.finite_singleton offset)).subset
  intro sub hreach
  rcases ReflTransGen.cases_tail hreach with heq | ⟨last, -, hstep⟩
  · exact Or.inr heq
  · obtain ⟨-, -, -, -, -, -, -, -, rva, -, -, rfl⟩ := hstep
    exact Or.inl (rva &&& 0x7FFFFFFF).isLt

/-- A read outside the section does not come about. -/
theorem ilResourceSectionCreate_ne_error (sec : ILResourceSection) (depth : Nat) (stop : MetaStop) :
    ilResourceSectionCreate sec depth ≠ some (.error stop) := by
  intro h
  rw [ilResourceSectionCreate] at h
  rcases parseResourceDirectory_cases sec depth 0 none with ⟨⟨dir, hdir⟩, -⟩ | ⟨hnone, -⟩
  · rw [hdir] at h
    cases h
  · rw [hnone] at h
    cases h

/-- The parser ends with a tree, and reads only in the section, exactly when no directory that the
root leads to leads back to itself. -/
theorem ilResourceSectionCreate_iff (sec : ILResourceSection) :
    ((∃ depth dir, ilResourceSectionCreate sec depth = some (.ok dir)) ∧
      ∀ depth stop, ilResourceSectionCreate sec depth ≠ some (.error stop)) ↔
    ∀ sub, ReflTransGen (SubDirectory sec) 0 sub → ¬ TransGen (SubDirectory sec) sub sub := by
  rw [← Descent.exists_within_iff (finite_reach sec 0)]
  constructor
  · rintro ⟨⟨depth, dir, hdir⟩, -⟩
    rw [ilResourceSectionCreate] at hdir
    rcases parseResourceDirectory_cases sec depth 0 none with ⟨-, hwithin⟩ | ⟨hnone, -⟩
    · exact ⟨depth, hwithin⟩
    · rw [hnone] at hdir
      cases hdir
  · rintro ⟨depth, hwithin⟩
    refine ⟨?_, ilResourceSectionCreate_ne_error sec⟩
    rcases parseResourceDirectory_cases sec depth 0 none with ⟨⟨dir, hdir⟩, -⟩ | ⟨-, hnot⟩
    · exact ⟨depth, dir, hdir⟩
    · exact absurd hwithin hnot

/-- A directory with one entry, which is for the directory itself. -/
def selfDirectory : ILResourceSection where
  data := [0, 0, 0, 0, 0, 0, 0, 0, 0, 0, 0, 0, 0, 0, 1, 0, 1, 0, 0, 0, 0, 0, 0, 0x80]
  mapRVA _ := none

theorem subDirectory_selfDirectory : SubDirectory selfDirectory 0 0 := by
  refine ⟨0, 1, 0, by decide, by decide, by decide, by decide, by decide, 0x80000000, ?_, ?_, ?_⟩
  · decide
  · decide
  · decide

theorem not_ilResourceSectionCreate_selfDirectory : ¬ ∀ sec : ILResourceSection,
    (∃ depth dir, ilResourceSectionCreate sec depth = some (.ok dir)) ∧
      ∀ depth stop, ilResourceSectionCreate sec depth ≠ some (.error stop) := by
  intro h
  obtain ⟨⟨depth, dir, hdir⟩, -⟩ := h selfDirectory
  rw [ilResourceSectionCreate] at hdir
  rcases parseResourceDirectory_cases selfDirectory depth 0 none with ⟨-, hwithin⟩ | ⟨hnone, -⟩
  · exact hwithin.not_transGen (.single subDirectory_selfDirectory)
  · rw [hnone] at hdir
    cases hdir

end Pnet.Image.WinRes
