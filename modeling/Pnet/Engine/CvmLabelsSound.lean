import Pnet.Engine.CvmLabels

/-! Branches and switch entries in the code that is put out. Code only grows at its end, and
a back-patch stays within the branch or the entry that it completes; so what lies at the
place of each is known from the calls before and after it. -/
namespace Pnet.Engine
open Pnet.Lib

/-! ### Labels -/

section LabelList

variable (labelList : List ILCVMLabel) (address other : ILUInt32)

def labelOf : ILCVMLabel := (getLabel labelList address).1

theorem address_labelOf : (labelOf labelList address).address = address := by
  unfold labelOf getLabel
  cases hfind : labelList.find? fun label => label.address = address with
  | none => rfl
  | some label => simpa using List.find?_some hfind

theorem labelOf_getLabel : labelOf (getLabel labelList address).2 other =
    labelOf labelList other := by
  unfold labelOf getLabel
  cases hfind : labelList.find? fun label => label.address = address with
  | some label => rfl
  | none =>
    by_cases heq : address = other
    · subst heq
      simp [hfind]
    · simp only [List.find?_cons, heq, decide_false]
      cases labelList.find? fun label => label.address = other <;> rfl

theorem labelOf_setLabel {label : ILCVMLabel} (haddress : label.address = address) :
    labelOf (setLabel (getLabel labelList address).2 label) other =
      if other = address then label else labelOf labelList other := by
  rw [← labelOf_getLabel labelList address other]
  have hmem : ((getLabel labelList address).2.find? fun old => old.address = address).isSome := by
    unfold getLabel
    cases hfind : labelList.find? fun old => old.address = address with
    | some old => simp [hfind]
    | none => simp
  generalize (getLabel labelList address).2 = labels at hmem ⊢
  have hsame : ∀ old : ILCVMLabel,
      (if old.address = label.address then label else old).address = old.address := by
    intro old
    split_ifs with h
    · exact h.symm
    · rfl
  have hfun : ((fun old : ILCVMLabel => decide (old.address = other)) ∘
      fun old => if old.address = label.address then label else old) =
      fun old => decide (old.address = other) := by
    funext old
    simp only [Function.comp_apply, hsame]
  unfold labelOf getLabel setLabel
  rw [List.find?_map, hfun]
  split_ifs with heq
  · subst heq
    obtain ⟨old, hold⟩ := Option.isSome_iff_exists.1 hmem
    have hfound := List.find?_some hold
    simp only [decide_eq_true_eq] at hfound
    simp [hold, hfound, haddress]
  · cases hfind : labels.find? fun old => old.address = other with
    | none => rfl
    | some old =>
      have hfound := List.find?_some hfind
      simp only [decide_eq_true_eq] at hfound
      simp [hfound, haddress, heq]

end LabelList

/-! ### What lies at the place of a call -/

section Sites

variable (unroll : Bool)

def branchBytes (op : BranchOp) (posn : Nat) : Option Nat → List ILUInt8
  | none => cvmOutBranchPlaceholder op
  | some label =>
    let relative : ILInt32 := BitVec.ofNat 32 label - BitVec.ofNat 32 posn
    if isShort relative then cvmOutBranch op relative else cvmOutBranchLong op relative

/-- An entry counts from the place of the switch, but for labels that were defined before. -/
def entryWord (switchStart posn : Nat) : Option Nat → Option Nat → ILInt32
  | some label, _ => BitVec.ofNat 32 label - (BitVec.ofNat 32 switchStart - BitVec.ofNat 32 posn)
  | none, some label => BitVec.ofNat 32 label - BitVec.ofNat 32 switchStart
  | none, none => 0

def callBytes (pre : List CoderCall) (call : CoderCall) (post : List CoderCall) : List ILUInt8 :=
  match call with
  | .label _ => if unroll then [copNop] else []
  | .branch op dest => branchBytes op (codeSize unroll pre) (labelPosn unroll pre call post dest)
  | .switchStart numEntries => cvmOutSwhead numEntries (cvmDefcaseOffset numEntries)
  | .switchEntry dest => wordBytes
    (entryWord (ILCVMCoder.run unroll pre).switchStart (codeSize unroll pre)
      (definedBefore unroll pre dest)
      (definedAfter unroll (codeSize unroll pre + callSize unroll call) post dest))
  | .other code => code

/-- The label that a call refers to. -/
def CoderCall.dest : CoderCall → Option ILUInt32
  | .branch _ dest => some dest
  | .switchEntry dest => some dest
  | _ => none

def callRef (pre : List CoderCall) : CoderCall → CVMRef
  | .switchEntry _ => ⟨BitVec.ofNat 32 (codeSize unroll pre),
      BitVec.ofNat 32 (ILCVMCoder.run unroll pre).switchStart⟩
  | _ => ⟨ilcvmLabelUndef, BitVec.ofNat 32 (codeSize unroll pre)⟩

/-- A reference that waits for its label. -/
def Pending (calls : List CoderCall) (address : ILUInt32) (ref : CVMRef) : Prop :=
  ∃ pre call post, calls = pre ++ call :: post ∧ call.dest = some address ∧
    labelPosn unroll pre call post address = none ∧ ref = callRef unroll pre call

def definedOffset (posn : Option Nat) : ILUInt32 :=
  match posn with
  | some posn => BitVec.ofNat 32 posn
  | none => ilcvmLabelUndef

/-- The state of the coder after calls. -/
structure CoderInv (calls : List CoderCall) (coder : ILCVMCoder) : Prop where
  length : coder.code.length = codeSize unroll calls
  switchStart : coder.switchStart = (ILCVMCoder.run unroll calls).switchStart
  sites : ∀ pre call post, calls = pre ++ call :: post →
    Holds coder.code (codeSize unroll pre) (callBytes unroll pre call post)
  offset : ∀ address, (labelOf coder.labelList address).offset =
    definedOffset (definedBefore unroll calls address)
  refs : ∀ address ref, ref ∈ (labelOf coder.labelList address).refs ↔
    Pending unroll calls address ref

end Sites

section Run

variable {unroll : Bool} {calls pre post : List CoderCall} {call last : CoderCall}
  {address : ILUInt32}

theorem run_snoc (calls : List CoderCall) (call : CoderCall) :
    ILCVMCoder.run unroll (calls ++ [call]) = (ILCVMCoder.run unroll calls).step unroll call := by
  simp [ILCVMCoder.run]

@[simp] theorem length_wordBytes (value : ILUInt32) : (wordBytes value).length = 4 := rfl

@[simp] theorem length_branchBytes (op : BranchOp) (posn : Nat) (label : Option Nat) :
    (branchBytes op posn label).length = 6 := by
  unfold branchBytes
  split
  · rfl
  · dsimp only
    split_ifs <;> rfl

theorem length_callBytes (pre : List CoderCall) (call : CoderCall) (post : List CoderCall) :
    (callBytes unroll pre call post).length = callSize unroll call := by
  cases call with
  | label address => cases unroll <;> rfl
  | branch op dest => exact length_branchBytes ..
  | switchStart | switchEntry | other => rfl

/-- A call among all but the last one, or the last one. -/
theorem snoc_eq_iff : calls ++ [last] = pre ++ call :: post ↔
    (post = [] ∧ calls = pre ∧ last = call) ∨
      ∃ rest, post = rest ++ [last] ∧ calls = pre ++ call :: rest := by
  constructor
  · intro heq
    cases post using List.reverseRecOn with
    | nil =>
      have hinj := List.append_inj' heq rfl
      exact .inl ⟨rfl, hinj.1, (List.cons.inj hinj.2).1⟩
    | append_singleton rest final =>
      rw [← List.cons_append, ← List.append_assoc] at heq
      have hinj := List.append_inj' heq rfl
      exact .inr ⟨rest, by rw [(List.cons.inj hinj.2).1], hinj.1⟩
  · intro h
    cases h with
    | inl h =>
      obtain ⟨rfl, rfl, rfl⟩ := h
      rfl
    | inr h =>
      obtain ⟨rest, rfl, rfl⟩ := h
      simp

theorem labelPosn_snoc (hlast : last ≠ .label address) :
    labelPosn unroll pre call (post ++ [last]) address =
      labelPosn unroll pre call post address := by
  rw [labelPosn, definedAfter_snoc _ _ _ hlast, labelPosn]

/-- Calls other than labels change no other call. -/
theorem callBytes_snoc (hlast : ∀ address, call.dest = some address → last ≠ .label address) :
    callBytes unroll pre call (post ++ [last]) = callBytes unroll pre call post := by
  cases call with
  | label | switchStart | other => rfl
  | branch op dest => rw [callBytes, labelPosn_snoc (hlast dest rfl), callBytes]
  | switchEntry dest => rw [callBytes, definedAfter_snoc _ _ _ (hlast dest rfl), callBytes]

theorem pending_snoc {ref : CVMRef} (hlast : last ≠ .label address) :
    Pending unroll (calls ++ [last]) address ref ↔ Pending unroll calls address ref ∨
      last.dest = some address ∧ definedBefore unroll calls address = none ∧
        ref = callRef unroll calls last := by
  constructor
  · intro h
    obtain ⟨pre, call, post, heq, hdest, hposn, href⟩ := h
    cases snoc_eq_iff.1 heq with
    | inl h =>
      obtain ⟨rfl, rfl, rfl⟩ := h
      exact .inr ⟨hdest, (Option.or_eq_none_iff.1 hposn).1, href⟩
    | inr h =>
      obtain ⟨rest, rfl, rfl⟩ := h
      rw [labelPosn_snoc hlast] at hposn
      exact .inl ⟨pre, call, rest, rfl, hdest, hposn, href⟩
  · intro h
    cases h with
    | inl h =>
      obtain ⟨pre, call, post, rfl, hdest, hposn, href⟩ := h
      refine ⟨pre, call, post ++ [last], by simp, hdest, ?_, href⟩
      rwa [labelPosn_snoc hlast]
    | inr h =>
      obtain ⟨hdest, hbefore, href⟩ := h
      exact ⟨calls, last, [], rfl, hdest, Option.or_eq_none_iff.2 ⟨hbefore, rfl⟩, href⟩

theorem pending_label {ref : CVMRef} {other : ILUInt32} :
    Pending unroll (calls ++ [.label address]) other ref ↔
      other ≠ address ∧ Pending unroll calls other ref := by
  by_cases heq : other = address
  · subst heq
    apply iff_of_false
    · intro h
      obtain ⟨pre, call, post, heq, hdest, hposn, _⟩ := h
      cases snoc_eq_iff.1 heq with
      | inl h =>
        obtain ⟨_, _, rfl⟩ := h
        cases hdest
      | inr h =>
        obtain ⟨rest, rfl, _⟩ := h
        rw [labelPosn, definedAfter_label] at hposn
        simp at hposn
    · exact fun h => h.1 rfl
  · have hlast : CoderCall.label address ≠ .label other := by
      intro h
      exact heq (CoderCall.label.inj h).symm
    rw [pending_snoc hlast, and_iff_right heq]
    simp [CoderCall.dest]

/-! ### One call -/

/-- A call that puts out its bytes at the end, and may leave a reference. -/
theorem CoderInv.out {coder coder' : ILCVMCoder} (h : CoderInv unroll calls coder)
    (hrun : coder' = (ILCVMCoder.run unroll (calls ++ [call])))
    (hlabel : ∀ address, call ≠ .label address)
    (hcode : coder'.code = coder.code ++ callBytes unroll calls call [])
    (hoffset : ∀ address,
      (labelOf coder'.labelList address).offset = (labelOf coder.labelList address).offset)
    (hrefs : ∀ address ref, ref ∈ (labelOf coder'.labelList address).refs ↔
      ref ∈ (labelOf coder.labelList address).refs ∨
        call.dest = some address ∧ definedBefore unroll calls address = none ∧
          ref = callRef unroll calls call) : CoderInv unroll (calls ++ [call]) coder' where
  length := by
    rw [hcode, List.length_append, length_callBytes, h.length]
    simp
  switchStart := by rw [hrun]
  sites := by
    intro pre other post heq
    rw [hcode]
    cases snoc_eq_iff.1 heq with
    | inl hlast =>
      obtain ⟨rfl, rfl, rfl⟩ := hlast
      rw [← h.length]
      exact holds_append _ _
    | inr hold =>
      obtain ⟨rest, rfl, hcalls⟩ := hold
      rw [callBytes_snoc fun address _ => hlabel address]
      exact (h.sites pre other rest hcalls).append _
  offset := by
    intro address
    rw [hoffset, h.offset, definedBefore_snoc _ _ (hlabel address)]
  refs := by
    intro address ref
    rw [hrefs, h.refs, pending_snoc (hlabel address)]

theorem posn_eq {coder : ILCVMCoder} (h : CoderInv unroll calls coder) :
    coder.posn = BitVec.ofNat 32 (codeSize unroll calls) := by
  rw [ILCVMCoder.posn, h.length]

/-- A position below the size limit is not taken for a label that is not defined. -/
theorem ofNat_ne_undef (posn : Nat) (h : posn < 2 ^ 31) :
    BitVec.ofNat 32 posn ≠ ilcvmLabelUndef := by
  intro heq
  have hval := congrArg BitVec.toNat heq
  rw [BitVec.toNat_ofNat, Nat.mod_eq_of_lt (h.trans (by decide))] at hval
  have hundef : ilcvmLabelUndef.toNat = 2 ^ 32 - 1 := rfl
  omega

theorem offset_ne_undef {coder : ILCVMCoder} (h : CoderInv unroll calls coder)
    (hsize : codeSize unroll calls < 2 ^ 31) (address : ILUInt32) :
    (labelOf coder.labelList address).offset ≠ ilcvmLabelUndef ↔
      definedBefore unroll calls address ≠ none := by
  rw [h.offset]
  cases hposn : definedBefore unroll calls address with
  | none => simp [definedOffset]
  | some posn =>
    apply iff_of_true
    · exact ofNat_ne_undef _ ((definedBefore_le hposn).trans_lt hsize)
    · simp

/-- The list of labels after a call that refers to one. -/
def refer (labelList : List ILCVMLabel) (dest : ILUInt32) (ref : CVMRef) : List ILCVMLabel :=
  let (label, labelList) := getLabel labelList dest
  if label.offset ≠ ilcvmLabelUndef then labelList
  else setLabel labelList { label with refs := ref :: label.refs }

theorem offset_refer (labelList : List ILCVMLabel) (dest : ILUInt32) (ref : CVMRef)
    (address : ILUInt32) : (labelOf (refer labelList dest ref) address).offset =
      (labelOf labelList address).offset := by
  unfold refer
  dsimp only
  split_ifs with hdefined
  · rw [labelOf_getLabel]
  · rw [labelOf_setLabel]
    · split_ifs with heq
      · rw [heq]
        rfl
      · rfl
    · exact address_labelOf labelList dest

theorem refs_refer {labelList : List ILCVMLabel} {dest : ILUInt32} {ref other : CVMRef} :
    other ∈ (labelOf (refer labelList dest ref) address).refs ↔
      other ∈ (labelOf labelList address).refs ∨
        some dest = some address ∧ (labelOf labelList dest).offset = ilcvmLabelUndef ∧
          other = ref := by
  unfold refer
  dsimp only
  split_ifs with hdefined
  · rw [labelOf_getLabel]
    apply Iff.intro .inl
    intro h
    cases h with
    | inl h => exact h
    | inr h => exact absurd h.2.1 hdefined
  · have hundef := not_not.1 hdefined
    rw [labelOf_setLabel]
    · split_ifs with heq
      · subst heq
        have hoffset : (labelOf labelList address).offset = ilcvmLabelUndef := hundef
        simp only [List.mem_cons, true_and]
        rw [and_iff_right hoffset, or_comm]
        rfl
      · have hne : some dest ≠ some address := fun h => heq (Option.some.inj h).symm
        simp [hne]
    · exact address_labelOf labelList dest

/-- A call that refers to a label, by the code that it puts out. -/
theorem CoderInv.refer {coder : ILCVMCoder} (h : CoderInv unroll calls coder)
    (hsize : codeSize unroll calls < 2 ^ 31) {dest : ILUInt32} (hdest : call.dest = some dest)
    (hrun : ILCVMCoder.run unroll (calls ++ [call]) = ILCVMCoder.mk
      (coder.code ++ callBytes unroll calls call [])
      (Engine.refer coder.labelList dest (callRef unroll calls call)) coder.switchStart) :
    CoderInv unroll (calls ++ [call]) (ILCVMCoder.run unroll (calls ++ [call])) := by
  apply h.out rfl
  · rintro address rfl
    cases hdest
  · rw [hrun]
  · intro address
    rw [hrun]
    exact offset_refer ..
  · intro address ref
    rw [hrun, refs_refer, hdest]
    apply or_congr_right
    apply and_congr_right
    intro heq
    rw [← Option.some.inj heq]
    apply and_congr_left
    intro _
    have hne := offset_ne_undef h hsize dest
    rw [← not_iff_not]
    exact hne

theorem CoderInv.branch (h : CoderInv unroll calls (ILCVMCoder.run unroll calls))
    (hsize : codeSize unroll calls < 2 ^ 31) (op : BranchOp) (dest : ILUInt32) :
    CoderInv unroll (calls ++ [.branch op dest])
      (ILCVMCoder.run unroll (calls ++ [.branch op dest])) := by
  apply h.refer hsize (show (CoderCall.branch op dest).dest = some dest from rfl)
  have hdefined := offset_ne_undef h hsize dest
  have hoffset := h.offset dest
  rw [run_snoc]
  unfold ILCVMCoder.step outputBranch Engine.refer callBytes labelPosn
  dsimp only
  rw [posn_eq h]
  unfold labelOf at hdefined hoffset
  cases hposn : definedBefore unroll calls dest with
  | none =>
    have hundef : ¬ (getLabel (ILCVMCoder.run unroll calls).labelList dest).1.offset ≠
        ilcvmLabelUndef := fun hne => hdefined.1 hne hposn
    rw [if_neg hundef, if_neg hundef]
    rfl
  | some posn =>
    rw [hposn] at hdefined hoffset
    rw [if_pos (hdefined.2 (by simp)), if_pos (hdefined.2 (by simp)), hoffset]
    rfl

theorem CoderInv.switchEntry (h : CoderInv unroll calls (ILCVMCoder.run unroll calls))
    (hsize : codeSize unroll calls < 2 ^ 31) (dest : ILUInt32) :
    CoderInv unroll (calls ++ [.switchEntry dest])
      (ILCVMCoder.run unroll (calls ++ [.switchEntry dest])) := by
  apply h.refer hsize (show (CoderCall.switchEntry dest).dest = some dest from rfl)
  have hdefined := offset_ne_undef h hsize dest
  have hoffset := h.offset dest
  rw [run_snoc]
  unfold ILCVMCoder.step cvmCoderSwitchEntry Engine.refer callBytes
  dsimp only
  rw [posn_eq h]
  unfold labelOf at hdefined hoffset
  cases hposn : definedBefore unroll calls dest with
  | none =>
    have hundef : ¬ (getLabel (ILCVMCoder.run unroll calls).labelList dest).1.offset ≠
        ilcvmLabelUndef := fun hne => hdefined.1 hne hposn
    rw [if_neg hundef, if_neg hundef]
    rfl
  | some posn =>
    rw [hposn] at hdefined hoffset
    rw [if_pos (hdefined.2 (by simp)), if_pos (hdefined.2 (by simp)), hoffset]
    rfl

theorem CoderInv.switchStart_call (h : CoderInv unroll calls (ILCVMCoder.run unroll calls))
    (numEntries : ILUInt32) : CoderInv unroll (calls ++ [.switchStart numEntries])
      (ILCVMCoder.run unroll (calls ++ [.switchStart numEntries])) := by
  apply h.out rfl
  · simp
  · rw [run_snoc]
    rfl
  · simp [run_snoc, ILCVMCoder.step, cvmCoderSwitchStart, ILCVMCoder.out]
  · simp [run_snoc, ILCVMCoder.step, cvmCoderSwitchStart, ILCVMCoder.out, CoderCall.dest]

theorem CoderInv.other (h : CoderInv unroll calls (ILCVMCoder.run unroll calls))
    (code : List ILUInt8) : CoderInv unroll (calls ++ [.other code])
      (ILCVMCoder.run unroll (calls ++ [.other code])) := by
  apply h.out rfl
  · simp
  · rw [run_snoc]
    rfl
  · simp [run_snoc, ILCVMCoder.step, ILCVMCoder.out]
  · simp [run_snoc, ILCVMCoder.step, ILCVMCoder.out, CoderCall.dest]

/-! ### Back-patching -/

variable (unroll) in
/-- The places of two calls lie apart. -/
theorem apart {pre' post' : List CoderCall} {call' : CoderCall}
    (h : calls = pre ++ call :: post) (h' : calls = pre' ++ call' :: post') :
    (pre = pre' ∧ call = call' ∧ post = post') ∨
      codeSize unroll pre + callSize unroll call ≤ codeSize unroll pre' ∨
      codeSize unroll pre' + callSize unroll call' ≤ codeSize unroll pre := by
  rw [h] at h'
  cases List.append_eq_append_iff.1 h' with
  | inl hsplit =>
    obtain ⟨between, rfl, hrest⟩ := hsplit
    cases between with
    | nil =>
      obtain ⟨rfl, rfl⟩ := List.cons.inj hrest
      exact .inl ⟨by simp, rfl, rfl⟩
    | cons first between =>
      obtain ⟨rfl, -⟩ := List.cons.inj hrest
      apply Or.inr ∘ Or.inl
      simp only [codeSize_append, codeSize_cons]
      omega
  | inr hsplit =>
    obtain ⟨between, rfl, hrest⟩ := hsplit
    cases between with
    | nil =>
      obtain ⟨rfl, rfl⟩ := List.cons.inj hrest
      exact .inl ⟨by simp, rfl, rfl⟩
    | cons first between =>
      obtain ⟨rfl, -⟩ := List.cons.inj hrest
      apply Or.inr ∘ Or.inr
      simp only [codeSize_append, codeSize_cons]
      omega

variable (unroll) in
theorem place_le (h : calls = pre ++ call :: post) :
    codeSize unroll pre + callSize unroll call ≤ codeSize unroll calls := by
  rw [h, codeSize_append, codeSize_cons]
  omega

theorem toNat_ofNat_posn (posn : Nat) (h : posn < 2 ^ 31) :
    (BitVec.ofNat 32 posn).toNat = posn := by
  rw [BitVec.toNat_ofNat]
  exact Nat.mod_eq_of_lt (h.trans (by decide))

section Patches

variable {code : List ILUInt8} {posn : Nat} {a b c : ILUInt8} {rest : List ILUInt8}

/-- The offset of a short branch is written. -/
theorem holds_short (hfit : posn + 2 ≤ code.length) (h : Holds code posn (a :: b :: rest)) :
    Holds (patch code (posn + 1) [c]) posn (a :: c :: rest) := by
  obtain ⟨hop, hoffset⟩ := Window.cons.1 h
  have hop : Holds code posn [a] := Window.cons.2 ⟨hop, Window.nil _ _⟩
  have hrest : Holds code (posn + 1 + 1) rest := (Window.cons.1 hoffset).2
  have hop' : Holds (patch code (posn + 1) [c]) posn [a] := hop.patch hfit (.inr (by simp))
  have hrest' : Holds (patch code (posn + 1) [c]) (posn + 1 + 1) rest :=
    hrest.patch hfit (.inl (by simp))
  have hoffset' : Holds (patch code (posn + 1) [c]) (posn + 1) [c] := holds_patch hfit
  exact Window.cons.2 ⟨(Window.cons.1 hop').1, Window.cons.2 ⟨(Window.cons.1 hoffset').1, hrest'⟩⟩

/-- A branch becomes a long one. -/
theorem holds_long {word : List ILUInt8} (hfit : posn + 2 + word.length ≤ code.length)
    (h : Holds code posn (a :: b :: rest)) :
    Holds (patch (patch code posn [c]) (posn + 2) word) posn (c :: b :: word) := by
  have hone : posn + [c].length ≤ code.length := by
    simp only [List.length_singleton]
    omega
  have hlength := length_patch hone
  have hsub : Holds code (posn + 1) [b] :=
    Window.cons.2 ⟨(Window.cons.1 (Window.cons.1 h).2).1, Window.nil _ _⟩
  have hsub' : Holds (patch (patch code posn [c]) (posn + 2) word) (posn + 1) [b] := by
    apply (hsub.patch hone (.inl (by simp))).patch (by omega)
    exact .inr (by simp)
  have hop' : Holds (patch (patch code posn [c]) (posn + 2) word) posn [c] := by
    apply (holds_patch hone).patch (by omega)
    exact .inr (by simp)
  have hword : Holds (patch (patch code posn [c]) (posn + 2) word) (posn + 2) word :=
    holds_patch (by omega)
  exact Window.cons.2 ⟨(Window.cons.1 hop').1, Window.cons.2 ⟨(Window.cons.1 hsub').1, hword⟩⟩

end Patches

/-- A back-patch writes within the place of the call that left the reference. -/
theorem backpatch_apart (hsize : codeSize unroll calls < 2 ^ 31)
    (hcalls : calls = pre ++ call :: post) (hdest : call.dest = some address) (offset : ILUInt32)
    {code : List ILUInt8} (hcode : codeSize unroll calls ≤ code.length) :
    (backpatch offset code (callRef unroll pre call)).length = code.length ∧
    ∀ posn part, Holds code posn part →
      (codeSize unroll pre + callSize unroll call ≤ posn ∨
        posn + part.length ≤ codeSize unroll pre) →
      Holds (backpatch offset code (callRef unroll pre call)) posn part := by
  have hplace := place_le unroll hcalls
  have hposn := toNat_ofNat_posn (codeSize unroll pre) (by omega)
  cases call with
  | label | switchStart | other => cases hdest
  | branch op dest =>
    have hcall : callSize unroll (.branch op dest) = 6 := rfl
    rw [hcall] at hplace ⊢
    unfold backpatch callRef
    dsimp only
    rw [if_pos rfl, hposn]
    split_ifs
    · have hfit : codeSize unroll pre + 1 + 1 ≤ code.length := by omega
      refine ⟨length_patch hfit, fun posn part hpart hapart => hpart.patch hfit ?_⟩
      simp only [List.length_singleton]
      omega
    · have hfit : codeSize unroll pre + 1 ≤ code.length := by omega
      have hlength : (patch code (codeSize unroll pre) [copBrLong]).length = code.length :=
        length_patch hfit
      have hfit' : codeSize unroll pre + 2 + 4 ≤
          (patch code (codeSize unroll pre) [copBrLong]).length := by omega
      refine ⟨(length_patch hfit').trans hlength, fun posn part hpart hapart => ?_⟩
      apply (hpart.patch hfit _).patch hfit'
      · rw [length_wordBytes]
        omega
      · simp only [List.length_singleton]
        omega
  | switchEntry dest =>
    have hcall : callSize unroll (.switchEntry dest) = 4 := rfl
    rw [hcall] at hplace ⊢
    have hundef := ofNat_ne_undef (codeSize unroll pre) (by omega)
    unfold backpatch callRef
    dsimp only
    rw [if_neg hundef, hposn]
    have hfit : codeSize unroll pre + 4 ≤ code.length := by omega
    refine ⟨length_patch hfit, fun posn part hpart hapart => hpart.patch hfit ?_⟩
    rw [length_wordBytes]
    omega

theorem labelPosn_label (hcalls : calls = pre ++ call :: post)
    (hposn : labelPosn unroll pre call post address = none) :
    labelPosn unroll pre call (post ++ [.label address]) address =
      some (codeSize unroll (calls ++ [.label address])) := by
  obtain ⟨hbefore, hafter⟩ := Option.or_eq_none_iff.1 hposn
  rw [labelPosn, hbefore, definedAfter_label, hafter, hcalls]
  simp [Nat.add_assoc]

/-- A branch or an entry is completed, also when it was before. -/
theorem backpatch_own (hsize : codeSize unroll calls < 2 ^ 31)
    (hcalls : calls = pre ++ call :: post) (hdest : call.dest = some address)
    (hposn : labelPosn unroll pre call post address = none) {code : List ILUInt8}
    (hcode : codeSize unroll calls ≤ code.length)
    (h : Holds code (codeSize unroll pre) (callBytes unroll pre call post) ∨
      Holds code (codeSize unroll pre)
        (callBytes unroll pre call (post ++ [.label address]))) :
    Holds (backpatch (BitVec.ofNat 32 (codeSize unroll (calls ++ [.label address]))) code
      (callRef unroll pre call)) (codeSize unroll pre)
        (callBytes unroll pre call (post ++ [.label address])) := by
  have hplace := place_le unroll hcalls
  have hnat := toNat_ofNat_posn (codeSize unroll pre) (by omega)
  have hlabel := labelPosn_label hcalls hposn
  cases call with
  | label | switchStart | other => cases hdest
  | branch op dest =>
    obtain rfl := Option.some.inj hdest
    have hcall : callSize unroll (.branch op dest) = 6 := rfl
    rw [hcall] at hplace
    unfold callBytes at h ⊢
    dsimp only at h ⊢
    rw [hposn, hlabel] at h
    rw [hlabel]
    unfold backpatch callRef
    unfold branchBytes at h ⊢
    dsimp only at h ⊢
    rw [if_pos rfl, hnat]
    split_ifs at h ⊢ with hshort
    · cases h with
      | inl h => exact holds_short (by omega) h
      | inr h => exact holds_short (by omega) h
    · cases h with
      | inl h => exact holds_long (by rw [length_wordBytes]; omega) h
      | inr h => exact holds_long (by rw [length_wordBytes]; omega) h
  | switchEntry dest =>
    obtain rfl := Option.some.inj hdest
    have hcall : callSize unroll (.switchEntry dest) = 4 := rfl
    rw [hcall] at hplace
    have hundef := ofNat_ne_undef (codeSize unroll pre) (by omega)
    rw [labelPosn, (Option.or_eq_none_iff.1 hposn).1, Option.none_or] at hlabel
    unfold callBytes entryWord backpatch callRef
    dsimp only
    rw [if_neg hundef, hnat, (Option.or_eq_none_iff.1 hposn).1, hlabel]
    exact holds_patch (by rw [length_wordBytes]; omega)

/-- A call whose reference is still to be back-patched. -/
def Waits (unroll : Bool) (refs : List CVMRef) (code : List ILUInt8) (pre : List CoderCall)
    (call : CoderCall) (post : List CoderCall) (address : ILUInt32) : Prop :=
  Holds code (codeSize unroll pre) (callBytes unroll pre call post) ∧
    call.dest = some address ∧ labelPosn unroll pre call post address = none ∧
    callRef unroll pre call ∈ refs

/-- Back-patching the references to a label completes those that wait and leaves the rest. -/
theorem backpatch_all (hsize : codeSize unroll calls < 2 ^ 31) {refs : List CVMRef}
    (hrefs : ∀ ref ∈ refs, Pending unroll calls address ref) {code : List ILUInt8}
    (hcode : codeSize unroll calls ≤ code.length) (hcalls : calls = pre ++ call :: post)
    (h : Waits unroll refs code pre call post address ∨
      Holds code (codeSize unroll pre) (callBytes unroll pre call (post ++ [.label address]))) :
    Holds (refs.foldl (backpatch (BitVec.ofNat 32 (codeSize unroll (calls ++ [.label address]))))
      code) (codeSize unroll pre) (callBytes unroll pre call (post ++ [.label address])) := by
  induction refs generalizing code with
  | nil =>
    cases h with
    | inl hwaits => cases hwaits.2.2.2
    | inr hdone => exact hdone
  | cons ref refs ih =>
    obtain ⟨hfirst, hrest⟩ := List.forall_mem_cons.1 hrefs
    obtain ⟨pre', call', post', hcalls', hdest', hposn', rfl⟩ := hfirst
    have hapart := backpatch_apart hsize hcalls' hdest'
      (BitVec.ofNat 32 (codeSize unroll (calls ++ [.label address]))) hcode
    have hcode' := hcode.trans hapart.1.ge
    apply ih hrest hcode'
    cases apart unroll hcalls hcalls' with
    | inl hsame =>
      obtain ⟨rfl, rfl, rfl⟩ := hsame
      apply Or.inr
      apply backpatch_own hsize hcalls hdest' hposn' hcode
      cases h with
      | inl hwaits => exact .inl hwaits.1
      | inr hdone => exact .inr hdone
    | inr hpart =>
      cases h with
      | inl hwaits =>
        obtain ⟨hraw, hdest, hposn, hmem⟩ := hwaits
        cases List.mem_cons.1 hmem with
        | inl heq =>
          rw [← heq]
          exact .inr (backpatch_own hsize hcalls hdest hposn hcode (.inl hraw))
        | inr hmem =>
          refine .inl ⟨hapart.2 _ _ hraw ?_, hdest, hposn, hmem⟩
          rw [length_callBytes]
          omega
      | inr hdone =>
        apply Or.inr
        apply hapart.2 _ _ hdone
        rw [length_callBytes]
        omega

theorem length_backpatch_all (hsize : codeSize unroll calls < 2 ^ 31) {refs : List CVMRef}
    (hrefs : ∀ ref ∈ refs, Pending unroll calls address ref) (offset : ILUInt32)
    {code : List ILUInt8} (hcode : codeSize unroll calls ≤ code.length) :
    (refs.foldl (backpatch offset) code).length = code.length := by
  induction refs generalizing code with
  | nil => rfl
  | cons ref refs ih =>
    obtain ⟨hfirst, hrest⟩ := List.forall_mem_cons.1 hrefs
    obtain ⟨pre', call', post', hcalls', hdest', _, rfl⟩ := hfirst
    have hlength := (backpatch_apart hsize hcalls' hdest' offset hcode).1
    exact (ih hrest (hcode.trans hlength.ge)).trans hlength

theorem backpatch_all_after (hsize : codeSize unroll calls < 2 ^ 31) {refs : List CVMRef}
    (hrefs : ∀ ref ∈ refs, Pending unroll calls address ref) (offset : ILUInt32)
    {code part : List ILUInt8} (hcode : codeSize unroll calls ≤ code.length)
    (h : Holds code (codeSize unroll calls) part) :
    Holds (refs.foldl (backpatch offset) code) (codeSize unroll calls) part := by
  induction refs generalizing code with
  | nil => exact h
  | cons ref refs ih =>
    obtain ⟨hfirst, hrest⟩ := List.forall_mem_cons.1 hrefs
    obtain ⟨pre', call', post', hcalls', hdest', _, rfl⟩ := hfirst
    have hapart := backpatch_apart hsize hcalls' hdest' offset hcode
    apply ih hrest (hcode.trans hapart.1.ge)
    exact hapart.2 _ _ h (.inl (place_le unroll hcalls'))

/-- A call that does not wait for the label stays as it is. -/
theorem callBytes_label (h : ¬ (call.dest = some address ∧
    labelPosn unroll pre call post address = none)) :
    callBytes unroll pre call (post ++ [.label address]) = callBytes unroll pre call post := by
  by_cases hdest : call.dest = some address
  · have hposn : labelPosn unroll pre call post address ≠ none := fun hnone => h ⟨hdest, hnone⟩
    cases call with
    | label | switchStart | other => rfl
    | branch op dest =>
      obtain rfl := Option.some.inj hdest
      unfold callBytes
      dsimp only
      congr 1
      unfold labelPosn at hposn ⊢
      rw [definedAfter_label, ← Option.or_assoc]
      exact Option.or_of_isSome (Option.isSome_iff_ne_none.2 hposn)
    | switchEntry dest =>
      obtain rfl := Option.some.inj hdest
      unfold callBytes
      dsimp only
      rw [definedAfter_label]
      unfold labelPosn at hposn
      cases hbefore : definedBefore unroll pre dest with
      | some posn => rfl
      | none =>
        rw [hbefore, Option.none_or] at hposn
        rw [Option.or_of_isSome (Option.isSome_iff_ne_none.2 hposn)]
  · apply callBytes_snoc
    rintro other hother hlabel
    rw [hother, CoderCall.label.inj hlabel] at hdest
    exact hdest rfl

theorem CoderInv.label (h : CoderInv unroll calls (ILCVMCoder.run unroll calls))
    (hsize : codeSize unroll calls < 2 ^ 31) (address : ILUInt32) :
    CoderInv unroll (calls ++ [.label address])
      (ILCVMCoder.run unroll (calls ++ [.label address])) := by
  generalize hcoder : (ILCVMCoder.run unroll calls).out (if unroll then [copNop] else []) = coder
  have hlist : coder.labelList = (ILCVMCoder.run unroll calls).labelList := by
    rw [← hcoder]
    rfl
  have hposn : coder.posn = BitVec.ofNat 32 (codeSize unroll (calls ++ [.label address])) := by
    rw [← hcoder, ILCVMCoder.posn, ILCVMCoder.out, List.length_append, h.length]
    cases unroll <;> simp [callSize]
  have hrun : ILCVMCoder.run unroll (calls ++ [.label address]) =
      { coder with
        code := (labelOf coder.labelList address).refs.foldl (backpatch coder.posn) coder.code
        labelList := setLabel (getLabel coder.labelList address).2
          { labelOf coder.labelList address with offset := coder.posn, refs := [] } } := by
    rw [run_snoc, ← hcoder]
    cases unroll with
    | true => rfl
    | false =>
      simp only [ILCVMCoder.step, cvmCoderLabel, Bool.false_eq_true, if_false, ILCVMCoder.out,
        List.append_nil]
      rfl
  have hrefs : ∀ ref ∈ (labelOf coder.labelList address).refs,
      Pending unroll calls address ref := by
    intro ref href
    rw [hlist] at href
    exact (h.refs address ref).1 href
  have hlength : coder.code.length = codeSize unroll (calls ++ [.label address]) := by
    rw [← hcoder, ILCVMCoder.out, List.length_append, h.length]
    cases unroll <;> simp [callSize]
  have hcode : codeSize unroll calls ≤ coder.code.length := by
    rw [hlength, codeSize_append]
    omega
  have haddress : ({ labelOf coder.labelList address with
      offset := coder.posn, refs := [] } : ILCVMLabel).address = address :=
    address_labelOf _ _
  exact {
    length := by
      rw [hrun]
      dsimp only
      rw [length_backpatch_all hsize hrefs _ hcode, hlength]
    switchStart := rfl
    sites := by
      intro pre call post heq
      rw [hrun, hposn]
      cases snoc_eq_iff.1 heq with
      | inl hlast =>
        obtain ⟨rfl, rfl, rfl⟩ := hlast
        apply backpatch_all_after hsize hrefs _ hcode
        rw [← hcoder, ← h.length]
        exact holds_append _ _
      | inr hold =>
        obtain ⟨rest, rfl, hcalls⟩ := hold
        have hraw : Holds coder.code (codeSize unroll pre) (callBytes unroll pre call rest) := by
          rw [← hcoder]
          exact (h.sites pre call rest hcalls).append _
        apply backpatch_all hsize hrefs hcode hcalls
        by_cases hwaits : call.dest = some address ∧
            labelPosn unroll pre call rest address = none
        · refine .inl ⟨hraw, hwaits.1, hwaits.2, ?_⟩
          rw [hlist, h.refs]
          exact ⟨pre, call, rest, hcalls, hwaits.1, hwaits.2, rfl⟩
        · rw [callBytes_label hwaits]
          exact .inr hraw
    offset := by
      intro other
      rw [hrun]
      dsimp only
      rw [labelOf_setLabel _ _ _ haddress]
      split_ifs with heq
      · rw [heq, definedBefore_label, hposn]
        rfl
      · rw [definedBefore_snoc, hlist, h.offset]
        intro hlabel
        exact heq (CoderCall.label.inj hlabel).symm
    refs := by
      intro other ref
      rw [hrun, pending_label]
      dsimp only
      rw [labelOf_setLabel _ _ _ haddress]
      split_ifs with heq
      · simp [heq]
      · rw [hlist, h.refs]
        simp [heq] }

/-- The invariant holds after every sequence of calls. -/
theorem coderInv_run (calls : List CoderCall) (hsize : codeSize unroll calls < 2 ^ 31) :
    CoderInv unroll calls (ILCVMCoder.run unroll calls) := by
  induction calls using List.reverseRecOn with
  | nil =>
    exact {
      length := rfl
      switchStart := rfl
      sites := by simp
      offset := fun address => rfl
      refs := by
        intro address ref
        apply iff_of_false
        · simp [labelOf, getLabel, ILCVMCoder.run, ILCVMCoder.init]
        · intro h
          obtain ⟨pre, call, post, hcalls, _⟩ := h
          simp at hcalls }
  | append_singleton calls call ih =>
    rw [codeSize_append] at hsize
    have h := ih (by omega)
    cases call with
    | label address => exact h.label (by omega) address
    | branch op dest => exact h.branch (by omega) op dest
    | switchStart numEntries => exact h.switchStart_call numEntries
    | switchEntry dest => exact h.switchEntry (by omega) dest
    | other code => exact h.other code

end Run

end Pnet.Engine
