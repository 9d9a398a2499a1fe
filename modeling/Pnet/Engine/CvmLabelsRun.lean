import Pnet.Engine.CvmLabelsSound

/-! What the interpreter makes of the branches and the switch entries. -/
namespace Pnet.Engine
open Pnet.Lib

section Interpreter

variable {native : NativeInt} {start : BitVec native.bits} {code : List ILUInt8} {pc label : Nat}

theorem bytes_append (value : ILUInt32) :
    value.extractLsb' 24 8 ++ value.extractLsb' 16 8 ++ value.extractLsb' 8 8 ++
      value.extractLsb' 0 8 = value := by
  ext i hi
  simp only [BitVec.getElem_append, BitVec.getElem_extractLsb']
  split_ifs <;> rw [BitVec.getElem_eq_testBit_toNat, BitVec.getLsbD] <;> congr 1 <;> omega

theorem ilReadInt32_of_holds {value : ILUInt32} (h : Holds code pc (wordBytes value)) :
    ilReadInt32 code pc = some value := by
  obtain ⟨h0, h⟩ := Window.cons.1 h
  obtain ⟨h1, h⟩ := Window.cons.1 h
  obtain ⟨h2, h⟩ := Window.cons.1 h
  obtain ⟨h3, _⟩ := Window.cons.1 h
  unfold ilReadInt32
  rw [h0, h1, h2, h3]
  simp only [Option.bind_eq_bind, Option.bind_some, Option.pure_def]
  rw [bytes_append]

theorem toInt_ofNat_posn {posn : Nat} (h : posn < 2 ^ 31) : (BitVec.ofNat 32 posn).toInt = posn := by
  rw [BitVec.toInt_ofNat']
  exact Int.bmod_eq_of_le (by omega) (by omega)

/-- The distance between two positions. -/
theorem toInt_distance (hlabel : label < 2 ^ 31) (hpc : pc < 2 ^ 31) :
    (BitVec.ofNat 32 label - BitVec.ofNat 32 pc : ILInt32).toInt = (label : Int) - pc := by
  rw [BitVec.toInt_sub, toInt_ofNat_posn hlabel, toInt_ofNat_posn hpc]
  exact Int.bmod_eq_of_le (by omega) (by omega)

theorem toInt_setWidth_of_short {relative : ILInt32} (h : isShort relative) :
    (relative.setWidth 8).toInt = relative.toInt := by
  obtain ⟨hlow, hhigh⟩ := h
  rw [← BitVec.signExtend_eq_setWidth_of_le _ (by decide),
    BitVec.toInt_signExtend_eq_toInt_bmod_of_le _ (by decide)]
  exact Int.bmod_eq_of_le (by omega) (by omega)

theorem code_ne_copBrLong (op : BranchOp) : op.code ≠ copBrLong := by
  cases op <;> decide

theorem execBranch_eq {op : BranchOp} (hpc : pc < 2 ^ 31) (hlabel : label < 2 ^ 31)
    (h : Holds code pc (branchBytes op pc (some label))) (stack : CVMStack native) :
    execBranch start code pc stack = op.exec start pc label stack := by
  have hdistance := toInt_distance hlabel hpc
  unfold branchBytes at h
  dsimp only at h
  generalize (BitVec.ofNat 32 label - BitVec.ofNat 32 pc : ILInt32) = relative at h hdistance
  have hdest : (pc : Int) + relative.toInt = label := by omega
  split_ifs at h with hshort
  · obtain ⟨hop, h⟩ := Window.cons.1 h
    obtain ⟨hoffset, _⟩ := Window.cons.1 h
    unfold execBranch cvmArgBranchShort
    rw [hop, hoffset]
    simp [code_ne_copBrLong, toInt_setWidth_of_short hshort, hdest]
  · obtain ⟨hop, h⟩ := Window.cons.1 h
    obtain ⟨hsub, h⟩ := Window.cons.1 h
    unfold execBranch cvmArgBranchLong
    rw [hop, hsub, ilReadInt32_of_holds h]
    simp [hdest]

theorem execSwitch_eq {numEntries : ILUInt32} {defCase word : ILInt32} {index : Nat}
    (hindex : index < numEntries.toNat) (hsmall : 4 * index < 2 ^ 32)
    (hhead : Holds code pc (cvmOutSwhead numEntries defCase))
    (hentry : Holds code (pc + 9 + 4 * index) (wordBytes word)) (rest : CVMStack native) :
    execSwitch code pc (.intValue (BitVec.ofNat 32 index) :: rest) =
      some (pc + word.toInt, rest) := by
  obtain ⟨hop, hhead⟩ := Window.cons.1 hhead
  have hlimit := ilReadInt32_of_holds (Window.append.1 hhead).1
  have hval : (BitVec.ofNat 32 index).toNat = index := by
    rw [BitVec.toNat_ofNat]
    exact Nat.mod_eq_of_lt (hindex.trans numEntries.isLt)
  have hlt : BitVec.ofNat 32 index < numEntries := by
    rw [BitVec.lt_def, hval]
    exact hindex
  have hmul : (BitVec.ofNat 32 index * 4).toNat = 4 * index := by
    rw [BitVec.toNat_mul, hval, Nat.mul_comm]
    exact Nat.mod_eq_of_lt hsmall
  unfold execSwitch cvmArgSwitchDest
  rw [hop, hlimit]
  simp only [CVMValue.toIntValue, Option.bind_eq_bind, Option.bind_some, if_true, if_pos hlt, hmul,
    ilReadInt32_of_holds hentry, Option.pure_def]

end Interpreter

section Resolve

variable {unroll : Bool} {calls pre post : List CoderCall} {numEntries dest : ILUInt32}
  {dests : List ILUInt32}

theorem switchStart_table (pre : List CoderCall) (numEntries : ILUInt32) (dests : List ILUInt32)
    (hsize : codeSize unroll pre < 2 ^ 31) :
    (ILCVMCoder.run unroll
      (pre ++ .switchStart numEntries :: dests.map .switchEntry)).switchStart =
      codeSize unroll pre := by
  induction dests using List.reverseRecOn with
  | nil =>
    rw [List.map_nil, run_snoc]
    exact (coderInv_run pre hsize).length
  | append_singleton dests dest ih =>
    rw [List.map_append, List.map_singleton, ← List.cons_append, ← List.append_assoc, run_snoc]
    rw [← ih]
    unfold ILCVMCoder.step cvmCoderSwitchEntry
    dsimp only
    split_ifs <;> rfl

/-- Where the entry of a switch leads. -/
theorem execSwitch_table {native : NativeInt} (hsize : codeSize unroll calls < 2 ^ 31)
    (hcalls : calls = pre ++ .switchStart numEntries ::
      (dests.map .switchEntry ++ .switchEntry dest :: post))
    (hindex : dests.length < numEntries.toNat) (rest : CVMStack native) :
    execSwitch (ILCVMCoder.run unroll calls).code (codeSize unroll pre)
      (.intValue (BitVec.ofNat 32 dests.length) :: rest) =
      some (codeSize unroll pre + (entryWord (codeSize unroll pre)
        (codeSize unroll pre + 9 + 4 * dests.length) (definedBefore unroll pre dest)
        (definedAfter unroll (codeSize unroll pre + 9 + 4 * dests.length + 4) post dest)).toInt,
        rest) := by
  have hinv := coderInv_run calls hsize
  have hcalls' : calls = (pre ++ .switchStart numEntries :: dests.map .switchEntry) ++
      .switchEntry dest :: post := by
    rw [hcalls]
    simp
  have htable : codeSize unroll (pre ++ .switchStart numEntries :: dests.map .switchEntry) =
      codeSize unroll pre + 9 + 4 * dests.length := by
    rw [codeSize_append, codeSize_cons, codeSize_switchEntries]
    exact (Nat.add_assoc ..).symm
  have hplace := place_le unroll hcalls'
  have hhead := hinv.sites _ _ _ hcalls
  have hentry := hinv.sites _ _ _ hcalls'
  unfold callBytes at hhead hentry
  dsimp only at hhead hentry
  rw [switchStart_table _ _ _ (by omega), definedBefore_table, htable] at hentry
  exact execSwitch_eq hindex (by omega) hhead hentry rest

/-- For a label that was defined before, an entry leads elsewhere. -/
theorem entryWord_backward {switchStart posn label : Nat} (hposn : 0 < posn)
    (hsmall : posn < 2 ^ 31) (hlabel : label < 2 ^ 31) (hstart : switchStart < 2 ^ 31)
    (after : Option Nat) :
    (switchStart : Int) + (entryWord switchStart posn (some label) after).toInt ≠ label := by
  intro heq
  have hdistance := toInt_distance hlabel hstart
  have hword : entryWord switchStart posn (some label) after =
      BitVec.ofNat 32 label - BitVec.ofNat 32 switchStart := by
    apply BitVec.eq_of_toInt_eq
    omega
  have hzero : BitVec.ofNat 32 posn = 0 := by
    exact sub_eq_self.1 (sub_right_inj.1 hword)
  have hnat := toNat_ofNat_posn _ hsmall
  rw [hzero] at hnat
  exact hposn.ne hnat

theorem labelPosn_lt {call : CoderCall} {address : ILUInt32} {posn : Nat}
    (hsize : codeSize unroll calls < 2 ^ 31) (hcalls : calls = pre ++ call :: post)
    (h : labelPosn unroll pre call post address = some posn) : posn < 2 ^ 31 := by
  rw [hcalls, codeSize_append, codeSize_cons] at hsize
  cases Option.or_eq_some_iff.1 h with
  | inl hbefore =>
    have hle := definedBefore_le hbefore
    omega
  | inr hafter =>
    have hle := definedAfter_le hafter.2
    omega

theorem execBranch_taken {native : NativeInt} {start : BitVec native.bits} {op : BranchOp}
    {posn : Nat} (hsize : codeSize unroll calls < 2 ^ 31)
    (hcalls : calls = pre ++ .branch op dest :: post)
    (hposn : labelPosn unroll pre (.branch op dest) post dest = some posn)
    {stack rest : CVMStack native}
    (htest : op.test (start + BitVec.ofNat native.bits (codeSize unroll pre + 6)) stack =
      some (true, rest)) :
    execBranch start (ILCVMCoder.run unroll calls).code (codeSize unroll pre) stack =
      some ((posn : Int), rest) := by
  have hplace := place_le unroll hcalls
  have hbytes := (coderInv_run calls hsize).sites _ _ _ hcalls
  unfold callBytes at hbytes
  dsimp only at hbytes
  rw [hposn] at hbytes
  rw [execBranch_eq (by omega) (labelPosn_lt hsize hcalls hposn) hbytes, BranchOp.exec, htest]
  rfl

variable (unroll) in
theorem table_le (hcalls : calls = pre ++ .switchStart numEntries ::
      (dests.map .switchEntry ++ .switchEntry dest :: post)) :
    codeSize unroll pre + 9 + 4 * dests.length + 4 + codeSize unroll post ≤
      codeSize unroll calls := by
  rw [hcalls]
  simp only [codeSize_append, codeSize_cons, codeSize_switchEntries, callSize]
  omega

/-- What comes after the entry of a switch, when its label was not defined before. -/
theorem labelPosn_table (hbefore : definedBefore unroll pre dest = none) :
    labelPosn unroll (pre ++ .switchStart numEntries :: dests.map .switchEntry)
      (.switchEntry dest) post dest =
      definedAfter unroll (codeSize unroll pre + 9 + 4 * dests.length + 4) post dest := by
  rw [labelPosn, definedBefore_table, hbefore, Option.none_or, codeSize_append, codeSize_cons,
    codeSize_switchEntries]
  simp only [callSize, Nat.add_assoc]

/-- Labels are resolved as they should, if and only if no entry of a switch has a label that
was defined before it. -/
theorem labelsResolve_iff (unroll : Bool) {native : NativeInt} (start : BitVec native.bits)
    {calls : List CoderCall} (hsize : codeSize unroll calls < 2 ^ 31) :
    LabelsResolve unroll start calls ↔ ForwardSwitches unroll calls := by
  constructor
  · intro h pre numEntries dests dest post hcalls hindex
    cases hbefore : definedBefore unroll pre dest with
    | none => rfl
    | some posn =>
      have htable := table_le unroll hcalls
      have hle := definedBefore_le hbefore
      have hposn : labelPosn unroll (pre ++ .switchStart numEntries :: dests.map .switchEntry)
          (.switchEntry dest) post dest = some posn := by
        rw [labelPosn, definedBefore_table, hbefore]
        rfl
      have hexec := h.switchEntry pre numEntries dests dest post posn hcalls hindex hposn []
      rw [execSwitch_table hsize hcalls hindex, hbefore] at hexec
      have hlabel := (Prod.mk.inj (Option.some.inj hexec)).1
      exact absurd hlabel
        (entryWord_backward (by omega) (by omega) (by omega) (by omega) _)
  · intro h
    constructor
    · intro pre op dest post posn hcalls hposn stack rest htest
      exact execBranch_taken hsize hcalls hposn htest
    · intro pre numEntries dests dest post posn hcalls hindex hposn rest
      have hbefore := h pre numEntries dests dest post hcalls hindex
      have htable := table_le unroll hcalls
      rw [labelPosn_table hbefore] at hposn
      have hle := definedAfter_le hposn
      have hdistance : (BitVec.ofNat 32 posn - BitVec.ofNat 32 (codeSize unroll pre)).toInt =
          (posn : Int) - codeSize unroll pre := toInt_distance (by omega) (by omega)
      rw [execSwitch_table hsize hcalls hindex, hbefore, hposn]
      unfold entryWord
      dsimp only
      rw [hdistance, add_sub_cancel]

/-- A loop that is left by a switch. -/
theorem labelsResolve_iff_loop : LabelsResolve false (0x1000 : BitVec NativeInt.int32.bits)
    [.label 0, .switchStart 1, .switchEntry 7, .branch .br 0, .label 7] := by
  apply (labelsResolve_iff false _ (by decide)).2
  intro pre numEntries dests dest post hcalls hindex
  match pre with
  | [] => cases hcalls
  | [first] =>
    obtain ⟨hlabel, hswitch⟩ := List.cons.inj hcalls
    obtain ⟨hstart, hentry⟩ := List.cons.inj hswitch
    rw [← CoderCall.switchStart.inj hstart] at hindex
    obtain rfl := List.eq_nil_of_length_eq_zero (Nat.lt_one_iff.1 hindex)
    rw [← hlabel, ← CoderCall.switchEntry.inj (List.cons.inj hentry).1]
    rfl
  | first :: second :: pre =>
    have hrest := (List.cons.inj (List.cons.inj hcalls).2).2
    have hmem : CoderCall.switchStart numEntries ∈
        [.switchEntry 7, .branch .br 0, .label 7] := by
      rw [hrest]
      simp
    simp at hmem

/-- An entry for the label at the start leads past the end. -/
theorem not_labelsResolve :
    @execSwitch .int32
      (ILCVMCoder.run false [.label 0, .switchStart 1, .switchEntry 0]).code 0 [.intValue 0] =
        some (9, []) ∧
    ¬ LabelsResolve false (0x1000 : BitVec NativeInt.int32.bits)
      [.label 0, .switchStart 1, .switchEntry 0] := by
  have hexec : @execSwitch .int32
      (ILCVMCoder.run false [.label 0, .switchStart 1, .switchEntry 0]).code 0 [.intValue 0] =
        some (9, []) := by
    decide
  refine ⟨hexec, fun h => ?_⟩
  have hentry := h.switchEntry [.label 0] 1 [] 0 [] 0 rfl (by decide) rfl []
  rw [show codeSize false [.label 0] = 0 from rfl] at hentry
  cases hexec.symm.trans hentry

end Resolve

end Pnet.Engine
