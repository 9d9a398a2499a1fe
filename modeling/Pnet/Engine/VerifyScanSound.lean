import Pnet.Engine.VerifyScan

/-! The scan moves forward on every instruction but one: a long annotation whose
length field makes the size wrap to zero. Without it the scan ends, and in what
it accepts every jump goes to the start of an instruction. -/
namespace Pnet.Engine
open Pnet.Lib Pnet.Image

/-! ### Instruction sizes -/

/-- What the two tables of opcodes say about sizes and annotations. -/
theorem opcodeTables :
    (ilMainOpcodeTable.all fun info =>
      decide (info.args = .switch ∨ info.args = .annData ∨ info.args = .annPhi ∨
        info.args = .invalid ∨ 0 < info.size)) = true ∧
    (ilPrefixOpcodeTable.all fun info =>
      decide (info.args = .annData ∨ info.args = .invalid ∨ 0 < info.size)) = true ∧
    (∀ opcode : ILUInt8,
      (mainOpcodeInfo opcode).args = .annData → opcode.toNat = ilOpAnnDataS) ∧
    (∀ opcode : ILUInt8, (prefixOpcodeInfo opcode).args = .annData → opcode = 0x22) := by
  decide +kernel

theorem mainOpcode_size : ilMainOpcodeTable.all (fun info =>
    decide (info.args = .switch ∨ info.args = .annData ∨ info.args = .annPhi ∨
      info.args = .invalid ∨ 0 < info.size)) = true :=
  opcodeTables.1

theorem prefixOpcode_size : ilPrefixOpcodeTable.all (fun info =>
    decide (info.args = .annData ∨ info.args = .invalid ∨ 0 < info.size)) = true :=
  opcodeTables.2.1

theorem mainOpcode_annData (opcode : ILUInt8) :
    (mainOpcodeInfo opcode).args = .annData → opcode.toNat = ilOpAnnDataS :=
  opcodeTables.2.2.1 opcode

theorem prefixOpcode_annData (opcode : ILUInt8) :
    (prefixOpcodeInfo opcode).args = .annData → opcode = 0x22 :=
  opcodeTables.2.2.2 opcode

theorem getD_table {table : List ILOpcodeInfo} {p : ILOpcodeInfo → Bool} (default : ILOpcodeInfo)
    (hall : table.all p = true) (hdefault : p default = true) (i : Nat) :
    p (table.getD i default) = true := by
  rw [List.getD_eq_getElem?_getD]
  cases h : table[i]? with
  | none => exact hdefault
  | some info => exact List.all_eq_true.mp hall info (List.mem_of_getElem? h)

/-- A long annotation whose size, the length field plus six, is zero in 32 bits. -/
def WrappedAnnotation (body : ILMethodCode) (pc : Nat) : Prop :=
  body.byteAt pc = ilOpPrefix ∧ body.byteAt (pc + 1) = 0x22 ∧
    body.readUInt32 (pc + 2) = 0xFFFFFFFA

/-- What fetching tells about an instruction with a size of its own. -/
structure FetchedInsn.Ok (body : ILMethodCode) (pc : Nat) (len : ILUInt32) (insn : FetchedInsn) :
    Prop where
  fits : insn.insnSize ≤ len
  sized : insn.insnType = .switch ∨ insn.insnType = .annData ∨ insn.insnType = .annPhi ∨
    insn.insnType = .invalid ∨ 0 < insn.insnSize
  annData : insn.insnType = .annData → insn.opcode ≠ ilOpAnnDataS →
    body.byteAt pc = ilOpPrefix ∧ body.byteAt (pc + 1) = 0x22

theorem setWidth_pos {size : ILUInt8} (h : 0 < size) : 0 < (size.setWidth 32 : ILUInt32) := by
  bv_omega

theorem fetchInsn_ok {body : ILMethodCode} {pc : Nat} {len : ILUInt32} {insn : FetchedInsn}
    (h : fetchInsn body pc len = .ok insn) : insn.Ok body pc len := by
  simp only [fetchInsn] at h
  split_ifs at h with hplain hshort htwo hshort
  · cases h
    have hsize := getD_table ⟨0, 0, .invalid, 1⟩ mainOpcode_size (by decide) (body.byteAt pc).toNat
    rw [decide_eq_true_eq] at hsize
    refine ⟨BitVec.not_lt.mp hshort, ?_, fun hann hne => absurd (mainOpcode_annData _ hann) hne⟩
    rcases hsize with h | h | h | h | h
    · exact .inl h
    · exact .inr (.inl h)
    · exact .inr (.inr (.inl h))
    · exact .inr (.inr (.inr (.inl h)))
    · exact .inr (.inr (.inr (.inr (setWidth_pos h))))
  · cases h
    have hsize := getD_table ⟨0, 0, .invalid, 2⟩ prefixOpcode_size (by decide)
      (body.byteAt (pc + 1)).toNat
    rw [decide_eq_true_eq] at hsize
    refine ⟨BitVec.not_lt.mp hshort, ?_, fun hann _ =>
      ⟨not_not.mp hplain, prefixOpcode_annData _ hann⟩⟩
    rcases hsize with h | h | h
    · exact .inr (.inl h)
    · exact .inr (.inr (.inr (.inl h)))
    · exact .inr (.inr (.inr (.inr (setWidth_pos h))))

theorem jumpTarget_ok {body : ILMethodCode} {offset target : ILUInt32}
    (h : jumpTarget body offset = .ok target) : target < body.codeLen := by
  unfold jumpTarget at h
  split at h
  · cases h
  · rename_i hlt
    cases h
    simpa using hlt

theorem switchTargets_ok {body : ILMethodCode} {base : ILUInt32} {pc numArgs : Nat}
    {targets : List ILUInt32} (h : switchTargets body base pc numArgs = .ok targets) :
    ∀ target ∈ targets, target < body.codeLen := by
  induction numArgs generalizing targets with
  | zero =>
    cases h
    simp
  | succ numArgs ih =>
    obtain ⟨first, hfirst, h⟩ := bind_ok h
    obtain ⟨rest, hrest, h⟩ := bind_ok h
    cases h
    intro target htarget
    rcases List.mem_cons.mp htarget with heq | hmem
    · rw [heq]
      exact jumpTarget_ok hfirst
    · exact ih hrest target hmem

/-- What scanning one instruction tells: it lies in the code, so do the offsets it
jumps to, and only a wrapped annotation has no size. -/
structure ScannedInsn.Ok (body : ILMethodCode) (pc : Nat) (len : ILUInt32) (insn : ScannedInsn) :
    Prop where
  fits : insn.insnSize ≤ len
  inside : ∀ target ∈ insn.targets, target < body.codeLen
  sized : insn.insnSize = 0 → 6 ≤ len ∧ WrappedAnnotation body pc

theorem annotation_wraps {length : ILUInt32} (h : length + 6 = 0) : length = 0xFFFFFFFA := by
  bv_omega

theorem operandInsn_ok {body : ILMethodCode} {pc : Nat} {len : ILUInt32} {fetched : FetchedInsn}
    {insn : ScannedInsn} (hfetch : fetched.Ok body pc len)
    (h : operandInsn body pc len fetched = .ok insn) : insn.Ok body pc len := by
  obtain ⟨hfits, hsized, hann⟩ := hfetch
  have hplain : ∀ targets, (∀ target ∈ targets, target < body.codeLen) →
      0 < fetched.insnSize → ScannedInsn.Ok body pc len ⟨fetched.insnSize, targets⟩ := by
    intro targets hinside hpos
    exact ⟨hfits, hinside, fun hzero => by simp only at hzero; rw [hzero] at hpos; exact absurd hpos (by decide)⟩
  unfold operandInsn at h
  split at h
  case h_1 htype =>
    obtain ⟨target, htarget, h⟩ := bind_ok h
    cases h
    apply hplain
    · simpa using jumpTarget_ok htarget
    · simpa [htype] using hsized
  case h_2 htype =>
    obtain ⟨target, htarget, h⟩ := bind_ok h
    cases h
    apply hplain
    · simpa using jumpTarget_ok htarget
    · simpa [htype] using hsized
  case h_3 htype =>
    simp only at h
    split_ifs at h with hlen hargs
    obtain ⟨targets, htargets, h⟩ := bind_ok h
    cases h
    obtain ⟨hsmall, hfit⟩ := not_or.mp hargs
    refine ⟨BitVec.not_lt.mp hfit, switchTargets_ok htargets, fun hzero => ?_⟩
    simp only at hzero
    exfalso
    bv_omega
  case h_4 htype =>
    simp only at h
    split_ifs at h with hshort hlen hfit hlen hfit
    · cases h
      refine ⟨BitVec.not_lt.mp hfit, by simp, fun hzero => ?_⟩
      simp only at hzero
      exfalso
      bv_omega
    · cases h
      refine ⟨BitVec.not_lt.mp hfit, by simp, fun hzero => ⟨BitVec.not_lt.mp hlen, ?_⟩⟩
      obtain ⟨hlead, hopcode⟩ := hann htype hshort
      exact ⟨hlead, hopcode, annotation_wraps hzero⟩
  case h_5 htype =>
    simp only at h
    split_ifs at h with hlen hfit
    cases h
    refine ⟨BitVec.not_lt.mp hfit, by simp, fun hzero => ?_⟩
    simp only at hzero
    exfalso
    bv_omega
  case h_6 => cases h
  case h_7 h1 h2 h3 h4 h5 h6 =>
    cases h
    apply hplain
    · simp
    · rcases hsized with hs | hs | hs | hs | hs
      · exact absurd hs h3
      · exact absurd hs h4
      · exact absurd hs h5
      · exact absurd hs h6
      · exact hs

theorem scanInsn_ok {body : ILMethodCode} {pc : Nat} {len : ILUInt32} {insn : ScannedInsn}
    (h : scanInsn body pc len = .ok insn) : insn.Ok body pc len := by
  obtain ⟨fetched, hfetch, h⟩ := bind_ok h
  exact operandInsn_ok (fetchInsn_ok hfetch) h

/-! ### Where the instructions start -/

/-- The offset of instruction `n`, if the code before it can be scanned. -/
def insnStart (body : ILMethodCode) : Nat → Option Nat
  | 0 => some 0
  | n + 1 =>
    match insnStart body n with
    | none => none
    | some pc =>
      if pc < body.code.length then
        match scanInsn body pc (body.codeLen - BitVec.ofNat 32 pc) with
        | .ok insn => some (pc + insn.insnSize.toNat)
        | .error _ => none
      else none

def IsStart (body : ILMethodCode) (pc : Nat) : Prop := ∃ n, insnStart body n = some pc

theorem toNat_codeLen (body : ILMethodCode) : body.codeLen.toNat = body.code.length :=
  Nat.mod_eq_of_lt body.fits

/-- The part of the loop state that decides where the scan goes. -/
structure ScanState.At (body : ILMethodCode) (s : ScanState) (n : Nat) : Prop where
  start : insnStart body n = some s.pc
  split : s.pc + s.len.toNat = body.code.length

theorem ScanState.At.len_eq {body : ILMethodCode} {s : ScanState} {n : Nat} (h : s.At body n) :
    s.len = body.codeLen - BitVec.ofNat 32 s.pc := by
  have hlen := toNat_codeLen body
  have hfits := body.fits
  have hsplit := h.split
  apply BitVec.eq_of_toNat_eq
  rw [BitVec.toNat_sub, BitVec.toNat_ofNat, hlen]
  omega

theorem scanStart_at (body : ILMethodCode) : (scanStart body).At body 0 :=
  ⟨rfl, by rw [scanStart, toNat_codeLen, Nat.zero_add]⟩

/-- One round: the instruction it scans and the state it leaves. -/
theorem scanStep_at {body : ILMethodCode} {s s' : ScanState} {n : Nat} (hat : s.At body n)
    (hlen : scanDone s = false) (h : scanStep body s = .ok s') :
    ∃ insn : ScannedInsn, scanInsn body s.pc (body.codeLen - BitVec.ofNat 32 s.pc) = .ok insn ∧
      insn.Ok body s.pc s.len ∧ s'.At body (n + 1) ∧ s'.pc = s.pc + insn.insnSize.toNat ∧
      s'.len.toNat + insn.insnSize.toNat = s.len.toNat ∧
      s'.jumpMask = insn.targets.foldl markJumpTarget
        (markInsnStart s.jumpMask (BitVec.ofNat 32 s.pc)) := by
  obtain ⟨insn, hinsn, h⟩ := bind_ok h
  cases h
  have hok := scanInsn_ok hinsn
  have hsplit := hat.split
  have hne : s.len ≠ 0 := by simpa [scanDone] using hlen
  have hpos : 0 < s.len.toNat := by
    rcases Nat.eq_zero_or_pos s.len.toNat with hz | hpos
    · exact absurd (BitVec.eq_of_toNat_eq (by simpa using hz)) hne
    · exact hpos
  have hfits : insn.insnSize.toNat ≤ s.len.toNat := hok.fits
  have hrest : (s.len - insn.insnSize).toNat + insn.insnSize.toNat = s.len.toNat := by
    rw [BitVec.toNat_sub_of_le hok.fits]
    omega
  rw [hat.len_eq] at hinsn
  refine ⟨insn, hinsn, hok, ⟨?_, ?_⟩, rfl, hrest, rfl⟩
  · simp only [insnStart, hat.start, hinsn]
    rw [if_pos (by omega)]
  · simp only
    omega

theorem reaches_at {body : ILMethodCode} {s : ScanState}
    (h : Reaches scanDone (scanStep body) (scanStart body) s) : ∃ n, s.At body n := by
  apply h.invariant (fun s => ∃ n, s.At body n) ⟨0, scanStart_at body⟩
  rintro s s' ⟨n, hat⟩ hdone hstep
  obtain ⟨insn, -, -, hnext, -⟩ := scanStep_at hat hdone hstep
  exact ⟨n + 1, hnext⟩

/-- The loop gets to every instruction start. -/
theorem reaches_start (body : ILMethodCode) (n pc : Nat) (h : insnStart body n = some pc) :
    ∃ s, Reaches scanDone (scanStep body) (scanStart body) s ∧ s.At body n ∧ s.pc = pc := by
  induction n generalizing pc with
  | zero =>
    cases h
    exact ⟨scanStart body, .start, scanStart_at body, rfl⟩
  | succ n ih =>
    unfold insnStart at h
    cases hprev : insnStart body n with
    | none => simp [hprev] at h
    | some prev =>
      obtain ⟨s, hreach, hat, rfl⟩ := ih prev hprev
      simp only [hprev] at h
      split at h
      · rename_i hlt
        split at h
        · rename_i insn hinsn
          cases h
          have hsplit := hat.split
          have hdone : scanDone s = false := by
            have hne : s.len ≠ 0 := by
              intro hzero
              rw [hzero] at hsplit
              simp at hsplit
              omega
            simpa [scanDone] using hne
          rw [← hat.len_eq] at hinsn
          have hstep : ∃ s', scanStep body s = .ok s' := by
            rw [scanStep, hinsn]
            exact ⟨_, rfl⟩
          obtain ⟨s', hs'⟩ := hstep
          obtain ⟨insn', hinsn', -, hat', hpc, -⟩ := scanStep_at hat hdone hs'
          rw [← hat.len_eq, hinsn] at hinsn'
          cases hinsn'
          exact ⟨s', .step hreach hdone hs', hat', hpc⟩
        · cases h
      · cases h

/-! ### Termination -/

/-- The scan comes to no annotation of size zero. -/
def NoWrappedAnnotation (body : ILMethodCode) : Prop :=
  ∀ pc, IsStart body pc → pc + 6 ≤ body.code.length → ¬ WrappedAnnotation body pc

/-- At a wrapped annotation the scan neither stops nor moves. -/
theorem scanStep_wrapped {body : ILMethodCode} {pc : Nat} (hfits : pc + 6 ≤ body.code.length)
    (h : WrappedAnnotation body pc) (s : ScanState) (hpc : s.pc = pc)
    (hsplit : s.pc + s.len.toNat = body.code.length) :
    scanDone s = false ∧
      ∃ s', scanStep body s = .ok s' ∧ s'.pc = pc ∧
        s'.pc + s'.len.toNat = body.code.length := by
  obtain ⟨hlead, hopcode, hlength⟩ := h
  subst hpc
  have hlen : 6 ≤ s.len.toNat := by omega
  have hbound : ∀ k : ILUInt32, k.toNat ≤ 6 → ¬ s.len < k := by
    intro k hk hlt
    have := BitVec.lt_def.mp hlt
    omega
  have hfetch : fetchInsn body s.pc s.len = .ok ⟨0x120, 0, .annData⟩ := by
    unfold fetchInsn
    rw [hlead, hopcode]
    have htwo := hbound 2 (by decide)
    have hzero := hbound ((prefixOpcodeInfo 0x22).size.setWidth 32) (by decide)
    simp only [ne_eq, not_true_eq_false, if_false, if_neg htwo, if_neg hzero]
    rfl
  have hscan : scanInsn body s.pc s.len = .ok ⟨0, []⟩ := by
    unfold scanInsn
    rw [hfetch]
    change operandInsn body s.pc s.len ⟨0x120, 0, .annData⟩ = _
    have hsix := hbound 6 (by decide)
    have hzero := hbound (0xFFFFFFFA + 6) (by decide)
    simp only [operandInsn, hlength]
    rw [if_neg (by decide), if_neg hsix, if_neg hzero]
    rfl
  refine ⟨?_, ?_⟩
  · have hne : s.len ≠ 0 := by
      intro hz
      rw [hz] at hlen
      exact absurd hlen (by decide)
    simpa [scanDone] using hne
  · rw [scanStep, hscan]
    refine ⟨_, rfl, rfl, ?_⟩
    simpa using hsplit

theorem scan_stuck {body : ILMethodCode} (h : ¬ NoWrappedAnnotation body) (fuel : Nat) :
    run scanDone (scanStep body) fuel (scanStart body) = none := by
  unfold NoWrappedAnnotation at h
  simp only [not_forall, not_not] at h
  obtain ⟨pc, ⟨n, hstart⟩, hfits, hwrapped⟩ := h
  obtain ⟨s, hreach, hat, hpc⟩ := reaches_start body n pc hstart
  apply run_of_reaches hreach
  intro fuel
  apply run_none (fun s => s.pc = pc ∧ s.pc + s.len.toNat = body.code.length)
  · rintro t ⟨htpc, htsplit⟩
    exact scanStep_wrapped hfits hwrapped t htpc htsplit
  · exact ⟨hpc, hat.split⟩

/-! ### The marks -/

theorem set_true_iff (mask : JumpMask) (bit b : ILUInt32) :
    mask.set bit b = true ↔ b = bit ∨ mask b = true := by
  simp [JumpMask.set]

theorem foldl_markJumpTarget (targets : List ILUInt32) (mask : JumpMask) (b : ILUInt32) :
    targets.foldl markJumpTarget mask b = true ↔
      mask b = true ∨ ∃ target ∈ targets, b = target * 3 + 1 := by
  induction targets generalizing mask with
  | nil => simp
  | cons target targets ih =>
    rw [List.foldl_cons, ih, markJumpTarget, set_true_iff]
    simp only [List.mem_cons, exists_eq_or_imp]
    tauto

theorem markBlock_mono (mask : JumpMask) (block : ILCoderExceptionBlock) (b : ILUInt32)
    (h : mask b = true) : markBlock mask block b = true := by
  simp [markBlock, markJumpTarget, markSpecialJumpTarget, set_true_iff, h]

/-- An exception block marks no instruction starts. -/
theorem markBlock_true {mask : JumpMask} {block : ILCoderExceptionBlock} {b : ILUInt32}
    (h : markBlock mask block b = true) :
    mask b = true ∨ ∃ offset, (offset = block.startOffset ∨ offset = block.endOffset) ∧
      (b = offset * 3 + 1 ∨ b = offset * 3 + 2) := by
  simp only [markBlock, markJumpTarget, markSpecialJumpTarget, set_true_iff] at h
  rcases h with h | h | h | h | h
  · exact .inr ⟨_, .inr rfl, .inr h⟩
  · exact .inr ⟨_, .inr rfl, .inl h⟩
  · exact .inr ⟨_, .inl rfl, .inr h⟩
  · exact .inr ⟨_, .inl rfl, .inl h⟩
  · exact .inl h

theorem foldl_markBlock_mono (blocks : List ILCoderExceptionBlock) (mask : JumpMask) (b : ILUInt32)
    (h : mask b = true) : blocks.foldl markBlock mask b = true := by
  induction blocks generalizing mask with
  | nil => exact h
  | cons block blocks ih => exact ih _ (markBlock_mono mask block b h)

theorem foldl_markBlock_true {blocks : List ILCoderExceptionBlock} {mask : JumpMask} {b : ILUInt32}
    (h : blocks.foldl markBlock mask b = true) :
    mask b = true ∨ ∃ block ∈ blocks, ∃ offset,
      (offset = block.startOffset ∨ offset = block.endOffset) ∧
        (b = offset * 3 + 1 ∨ b = offset * 3 + 2) := by
  induction blocks generalizing mask with
  | nil => exact .inl h
  | cons block blocks ih =>
    rcases ih h with hmask | ⟨other, hmem, hoffset⟩
    · rcases markBlock_true hmask with hmask | hoffset
      · exact .inl hmask
      · exact .inr ⟨block, List.mem_cons_self, hoffset⟩
    · exact .inr ⟨other, List.mem_cons_of_mem _ hmem, hoffset⟩

theorem targetsAreStarts_spec {mask : JumpMask} {n : Nat} (h : targetsAreStarts mask n = true)
    {target : Nat} (hlt : target < n) (hjump : isJumpTarget mask (BitVec.ofNat 32 target) = true) :
    isInsnStart mask (BitVec.ofNat 32 target) = true := by
  induction n with
  | zero => omega
  | succ n ih =>
    simp only [targetsAreStarts, Bool.and_eq_true, Bool.not_eq_true', Bool.and_eq_false_iff,
      Bool.not_eq_false'] at h
    obtain ⟨hlast, hrest⟩ := h
    rcases Nat.lt_succ_iff_lt_or_eq.mp hlt with hlt' | heq
    · exact ih hrest hlt'
    · subst heq
      rcases hlast with hno | hyes
      · rw [hjump] at hno
        cases hno
      · exact hyes

/-- After `n` rounds: every mark is a start or a target, and the targets of the
instructions passed are marked. -/
structure ScanState.Marks (body : ILMethodCode) (s : ScanState) (n : Nat) : Prop where
  position : s.At body n
  sound : ∀ b, s.jumpMask b = true →
    (∃ pc, IsStart body pc ∧ pc < body.code.length ∧ b = BitVec.ofNat 32 pc * 3) ∨
      ∃ target : ILUInt32, target < body.codeLen ∧ b = target * 3 + 1
  marked : ∀ k < n, ∀ pc insn, insnStart body k = some pc →
    scanInsn body pc (body.codeLen - BitVec.ofNat 32 pc) = .ok insn →
      ∀ target ∈ insn.targets, isJumpTarget s.jumpMask target = true

theorem scanStart_marks (body : ILMethodCode) : (scanStart body).Marks body 0 where
  position := scanStart_at body
  sound := by simp [scanStart]
  marked := by simp

theorem scanStep_marks {body : ILMethodCode} {s s' : ScanState} {n : Nat}
    (hmarks : s.Marks body n) (hdone : scanDone s = false) (h : scanStep body s = .ok s') :
    s'.Marks body (n + 1) := by
  obtain ⟨insn, hinsn, hok, hat', hpc, hlen, hmask⟩ := scanStep_at hmarks.position hdone h
  have hsplit := hmarks.position.split
  have hpos : 0 < s.len.toNat := by
    rcases Nat.eq_zero_or_pos s.len.toNat with hz | hpos
    · have hzero : s.len = 0 := BitVec.eq_of_toNat_eq (by simpa using hz)
      simp [scanDone, hzero] at hdone
    · exact hpos
  refine ⟨hat', ?_, ?_⟩
  · intro b hb
    rw [hmask, foldl_markJumpTarget, markInsnStart, set_true_iff] at hb
    rcases hb with (hb | hb) | ⟨target, hmem, hb⟩
    · exact .inl ⟨s.pc, ⟨n, hmarks.position.start⟩, by omega, hb⟩
    · exact hmarks.sound b hb
    · exact .inr ⟨target, hok.inside target hmem, hb⟩
  · intro k hk pc insn' hstart hscan target hmem
    unfold isJumpTarget
    rw [hmask, foldl_markJumpTarget, markInsnStart, set_true_iff]
    rcases Nat.lt_succ_iff_lt_or_eq.mp hk with hlt | heq
    · exact .inl (.inr (hmarks.marked k hlt pc insn' hstart hscan target hmem))
    · subst heq
      rw [hmarks.position.start] at hstart
      cases hstart
      rw [hinsn] at hscan
      cases hscan
      exact .inr ⟨target, hmem, rfl⟩

theorem reaches_marks {body : ILMethodCode} {s : ScanState}
    (h : Reaches scanDone (scanStep body) (scanStart body) s) : ∃ n, s.Marks body n := by
  apply h.invariant (fun s => ∃ n, s.Marks body n) ⟨0, scanStart_marks body⟩
  rintro s s' ⟨n, hmarks⟩ hdone hstep
  exact ⟨n + 1, scanStep_marks hmarks hdone hstep⟩

theorem toNat_triple {offset : ILUInt32} (h : offset.toNat ≤ 0x55555555) :
    (offset * 3).toNat = offset.toNat * 3 := by
  rw [BitVec.toNat_mul]
  exact Nat.mod_eq_of_lt (show offset.toNat * 3 < 2 ^ 32 by omega)

theorem triple_ne_wrap {t o k : Nat} (ho : o ≤ 0x55555555) (hpos : 1 ≤ k) (hk : k ≤ 2)
    (h : t * 3 = (o * 3 + k) % 0x100000000) : t = 0 := by
  have hwraps : (o * 3 + k) / 0x100000000 = 0 ∨ (o * 3 + k) / 0x100000000 = 1 := by omega
  rcases hwraps with hnone | hone <;> omega

/-- With so short a body the bits of different offsets are different, except that
the last offset an exception block can have wraps to offset zero. -/
theorem startBit_eq {t o : ILUInt32} {size : Nat} (hsize : size ≤ 0x55555555)
    (ht : t.toNat < size) (ho : o.toNat ≤ size) :
    (t * 3 = o * 3 → t = o) ∧ (t * 3 = o * 3 + 1 → t = 0) ∧ (t * 3 = o * 3 + 2 → t = 0) := by
  have hto := toNat_triple (ho.trans hsize)
  have htt := toNat_triple (ht.le.trans hsize)
  refine ⟨fun h => ?_, fun h => ?_, fun h => ?_⟩
  · have hnat := congrArg BitVec.toNat h
    rw [htt, hto] at hnat
    exact BitVec.eq_of_toNat_eq (Nat.eq_of_mul_eq_mul_right (by decide) hnat)
  · have hnat := congrArg BitVec.toNat h
    rw [BitVec.toNat_add, htt, hto] at hnat
    exact BitVec.eq_of_toNat_eq (triple_ne_wrap (ho.trans hsize) (by decide) (by decide) hnat)
  · have hnat := congrArg BitVec.toNat h
    rw [BitVec.toNat_add, htt, hto] at hnat
    exact BitVec.eq_of_toNat_eq (triple_ne_wrap (ho.trans hsize) (by decide) (by decide) hnat)

/-! ### The memory of the mask -/

theorem foldl_markBlock_ends {blocks : List ILCoderExceptionBlock} (mask : JumpMask)
    {block : ILCoderExceptionBlock} (hblock : block ∈ blocks) {offset : ILUInt32}
    (hoffset : offset = block.startOffset ∨ offset = block.endOffset) :
    blocks.foldl markBlock mask (offset * 3 + 2) = true := by
  induction blocks generalizing mask with
  | nil => cases hblock
  | cons other blocks ih =>
    rcases List.mem_cons.1 hblock with rfl | hblock
    · refine foldl_markBlock_mono blocks _ _ ?_
      rcases hoffset with rfl | rfl <;>
        simp [markBlock, markJumpTarget, markSpecialJumpTarget, set_true_iff]
    · exact ih _ hblock

theorem toNat_bits {offset : ILUInt32} {n : Nat} (hn : n ≤ 0x55555554) (hoffset : offset.toNat ≤ n) :
    (offset * 3 + 1).toNat = offset.toNat * 3 + 1 ∧ (offset * 3 + 2).toNat = offset.toNat * 3 + 2 := by
  have hone : (1 : ILUInt32).toNat = 1 := rfl
  have htwo : (2 : ILUInt32).toNat = 2 := rfl
  rw [BitVec.toNat_add, BitVec.toNat_add, toNat_triple (by omega), hone, htwo]
  omega

/-- What the pass is for: it ends, it moves forward on every instruction it lets
through, and what it accepts jumps only to instruction starts. -/
structure FirstPassSound (body : ILMethodCode) {extraCodeLen : Nat}
    (exceptions : ILCoderExceptions body extraCodeLen) : Prop where
  terminates : ∃ fuel r, firstPass fuel body exceptions = some r
  advances : ∀ s s', Reaches scanDone (scanStep body) (scanStart body) s → scanDone s = false →
    scanStep body s = .ok s' →
      ∃ size, 0 < size ∧ s'.pc = s.pc + size ∧ s'.len.toNat + size = s.len.toNat
  targets : ∀ fuel accepted, firstPass fuel body exceptions = some (.ok accepted) →
    ∀ pc insn, IsStart body pc → pc < body.code.length →
      scanInsn body pc (body.codeLen - BitVec.ofNat 32 pc) = .ok insn →
        ∀ target ∈ insn.targets, target.toNat < body.code.length ∧ IsStart body target.toNat

theorem firstPass_none {body : ILMethodCode} {extraCodeLen : Nat}
    (exceptions : ILCoderExceptions body extraCodeLen) (fuel : Nat) :
    firstPass fuel body exceptions = none ↔
      run scanDone (scanStep body) fuel (scanStart body) = none := by
  unfold firstPass
  split
  · simp [*]
  · simp [*]
  · rename_i hrun
    simp only [hrun]
    split <;> simp

theorem scanStep_advances {body : ILMethodCode} (hno : NoWrappedAnnotation body) {s s' : ScanState}
    (hreach : Reaches scanDone (scanStep body) (scanStart body) s) (hdone : scanDone s = false)
    (hstep : scanStep body s = .ok s') :
    ∃ size, 0 < size ∧ s'.pc = s.pc + size ∧ s'.len.toNat + size = s.len.toNat := by
  obtain ⟨n, hat⟩ := reaches_at hreach
  obtain ⟨insn, -, hok, -, hpc, hlen, -⟩ := scanStep_at hat hdone hstep
  refine ⟨insn.insnSize.toNat, Nat.pos_of_ne_zero fun hzero => ?_, hpc, hlen⟩
  obtain ⟨hsix, hwrapped⟩ := hok.sized (BitVec.eq_of_toNat_eq (by simpa using hzero))
  have hsplit := hat.split
  have hsix' : 6 ≤ s.len.toNat := hsix
  exact hno s.pc ⟨n, hat.start⟩ (by omega) hwrapped

theorem firstPass_terminates {body : ILMethodCode} {extraCodeLen : Nat}
    (exceptions : ILCoderExceptions body extraCodeLen) (hno : NoWrappedAnnotation body) :
    ∃ fuel r, firstPass fuel body exceptions = some r := by
  obtain ⟨fuel, r, hr⟩ := run_terminates (fun s : ScanState => s.len.toNat) (scanStart body)
    (fun s s' hreach hdone hstep => by
      obtain ⟨size, hpos, -, hlen⟩ := scanStep_advances hno hreach hdone hstep
      omega)
  refine ⟨fuel, Option.ne_none_iff_exists'.mp ?_⟩
  rw [ne_eq, firstPass_none, hr]
  simp

theorem firstPass_targets {body : ILMethodCode} {extraCodeLen : Nat}
    (exceptions : ILCoderExceptions body extraCodeLen)
    (hsmall : body.code.length + extraCodeLen ≤ 0x55555555) {fuel : Nat}
    {accepted : JumpMask × Bool} (h : firstPass fuel body exceptions = some (.ok accepted))
    {pc : Nat} {insn : ScannedInsn} (hstart : IsStart body pc) (hpc : pc < body.code.length)
    (hscan : scanInsn body pc (body.codeLen - BitVec.ofNat 32 pc) = .ok insn) {target : ILUInt32}
    (hmem : target ∈ insn.targets) :
    target.toNat < body.code.length ∧ IsStart body target.toNat := by
  have hcodeLen := toNat_codeLen body
  have hinside : target.toNat < body.codeLen.toNat := (scanInsn_ok hscan).inside target hmem
  rw [hcodeLen] at hinside
  refine ⟨hinside, ?_⟩
  unfold firstPass at h
  split at h
  · cases h
  · cases h
  · rename_i s hrun
    simp only at h
    split at h
    · rename_i hcheck
      obtain ⟨hreach, hdone⟩ := run_ok hrun
      obtain ⟨n, hmarks⟩ := reaches_marks hreach
      have hend : s.pc = body.code.length := by
        have hsplit := hmarks.position.split
        have hzero : s.len = 0 := by simpa [scanDone] using hdone
        rw [hzero] at hsplit
        simpa using hsplit
      -- the instruction was passed before the end
      obtain ⟨k, hk⟩ := hstart
      have hlt : k < n := by
        by_contra hge
        have hafter : ∀ j, n < j → insnStart body j = none := by
          intro j hj
          induction j with
          | zero => omega
          | succ j ih =>
            unfold insnStart
            rcases Nat.lt_succ_iff_lt_or_eq.mp hj with hlt | heq
            · rw [ih hlt]
            · rw [← heq, hmarks.position.start]
              simp [hend]
        rcases Nat.lt_or_eq_of_le (Nat.le_of_not_lt hge) with hlt | heq
        · rw [hafter k hlt] at hk
          cases hk
        · rw [← heq, hmarks.position.start] at hk
          cases hk
          omega
      have hmarked := hmarks.marked k hlt pc insn hk hscan target hmem
      have htarget : BitVec.ofNat 32 target.toNat = target := by simp
      have hbit := targetsAreStarts_spec hcheck hinside
        (by rw [htarget]; exact foldl_markBlock_mono _ _ _ hmarked)
      rw [htarget] at hbit
      have hzeroStart : target = 0 → IsStart body target.toNat := by
        rintro rfl
        exact ⟨0, rfl⟩
      rcases foldl_markBlock_true hbit with hbit | ⟨block, hblock, offset, hoffset, hbit⟩
      · rcases hmarks.sound _ hbit with ⟨p, hp, hplt, hbit⟩ | ⟨t, ht, hbit⟩
        · have hfits := body.fits
          have hpNat : (BitVec.ofNat 32 p).toNat = p := by
            rw [BitVec.toNat_ofNat, Nat.mod_eq_of_lt (by omega)]
          have heq := (startBit_eq hsmall (t := target) (o := BitVec.ofNat 32 p) (by omega) (by omega)).1 hbit
          rw [heq, hpNat]
          exact hp
        · have htlt : t.toNat < body.codeLen.toNat := ht
          exact hzeroStart ((startBit_eq hsmall (t := target) (o := t) (by omega)
            (by omega)).2.1 hbit)
      · obtain ⟨hs, he⟩ := exceptions.inside block hblock
        have hole : offset.toNat ≤ body.code.length + extraCodeLen := by
          rcases hoffset with rfl | rfl
          · exact hs
          · exact he
        have hwrap := startBit_eq hsmall (t := target) (o := offset) (by omega) hole
        rcases hbit with hbit | hbit
        · exact hzeroStart (hwrap.2.1 hbit)
        · exact hzeroStart (hwrap.2.2 hbit)
    · cases h

end Pnet.Engine
