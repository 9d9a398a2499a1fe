import Pnet.Cscc.CBitFieldAccess
import Pnet.Lib.BitField

/-! What a bit field has after a store, and what is loaded from it. The masks are right but for
fields of the whole width of a word, whose masks are computed with a shift by that width. -/
namespace Pnet.Cscc
open Pnet.Codegen Pnet.Engine Pnet.Lib Pnet.Lib.Extension

variable {native : NativeInt}

/-! ### What should hold -/

/-- The types that a bit field can be declared with. -/
def bitFieldTypes : List ILMachineType :=
  [.int8, .uint8, .int16, .uint16, .char, .int32, .uint32, .int64, .uint64]

def isLong (t : ILMachineType) : Prop := t = .int64 ∨ t = .uint64

instance (t : ILMachineType) : Decidable (isLong t) := inferInstanceAs (Decidable (_ ∨ _))

def isSigned (t : ILMachineType) : Prop := t = .int8 ∨ t = .int16 ∨ t = .int32 ∨ t = .int64

instance (t : ILMachineType) : Decidable (isSigned t) := inferInstanceAs (Decidable (_ ∨ _))

/-- A value on the stack of the type. -/
inductive HasType (t : ILMachineType) : StackValue native → Prop
  | word (hlong : ¬ isLong t) (x : ILInt32) : HasType t (.int32 x)
  | long (hlong : isLong t) (x : ILInt64) : HasType t (.int64 x)

/-- The bits of a field, extended to the width of the value. -/
def extended (t : ILMachineType) {size : Nat} (field : BitVec size) (w : Nat) : BitVec w :=
  if isSigned t then field.signExtend w else field.setWidth w

/-- A value that is cut down to the size of the field. -/
def reduced (t : ILMachineType) (size : Nat) : StackValue native → StackValue native
  | .int32 x => .int32 (extended t (x.setWidth size) 32)
  | .int64 x => .int64 (extended t (x.setWidth size) 64)
  | x => x

namespace CBitFieldNode

/-- The address of the storage unit in the structure at `addr`. -/
def unit (node : CBitFieldNode) (offset : ILUInt32) (addr : BitVec native.bits) :
    BitVec native.bits :=
  if node.complex ∧ ¬ node.hasOffset then addr else addr + offset.setWidth _

/-- An assignment: the address of the structure, the value, and the code around them. -/
def assign (overflow : ShiftOverflow) (lib : SystemDecimal) (node : CBitFieldNode)
    (offset : ILUInt32) (leave : Option Nat) (addr : BitVec native.bits) (v : StackValue native)
    (s : AccessState native (storageBits node.machineType)) :
    Except Fault (AccessState native (storageBits node.machineType)) :=
  (runAccess lib node.machineType offset node.prepare (s.push (.nativeInt addr))).bind fun s =>
    runAccess lib node.machineType offset (node.store overflow leave none) (s.push v)

/-- The value of the field of the structure at `addr`. -/
def access (overflow : ShiftOverflow) (lib : SystemDecimal) (node : CBitFieldNode)
    (offset : ILUInt32) (addr : BitVec native.bits)
    (s : AccessState native (storageBits node.machineType)) :
    Except Fault (AccessState native (storageBits node.machineType)) :=
  runAccess lib node.machineType offset (node.genValue overflow) (s.push (.nativeInt addr))

/-- A store keeps all bits outside the field, and what is loaded then is the value, cut down to
the size of the field. -/
def Sound (overflow : ShiftOverflow) (node : CBitFieldNode) : Prop :=
  ∀ (native : NativeInt) (lib : SystemDecimal) (offset : ILUInt32) (leave : Option Nat)
    (addr : BitVec native.bits) (v : StackValue native)
    (before : AccessState native (storageBits node.machineType)),
    leave ≠ some node.tempPtrVar → HasType node.machineType v →
    ∃ after, node.assign overflow lib offset leave addr v before = .ok after ∧
      after.stack = leave.toList.map (fun _ => v) ++ before.stack ∧
      (∀ a, a ≠ node.unit offset addr → after.memory a = before.memory a) ∧
      (∀ i < storageBits node.machineType,
        ¬ (node.bitFieldStart.toNat ≤ i ∧
          i < node.bitFieldStart.toNat + node.bitFieldSize.toNat) →
        (after.memory (node.unit offset addr)).getLsbD i =
          (before.memory (node.unit offset addr)).getLsbD i) ∧
      node.access overflow lib offset addr after =
        .ok (after.push (reduced node.machineType node.bitFieldSize.toNat v))

end CBitFieldNode

/-! ### Code on numbers -/

section Code

variable (lib : SystemDecimal) (stack : Stack native)

theorem run_ilGenUIntNative (count : ILUInt32) :
    run lib (ilGenUIntNative count) stack =
      .ok (.nativeInt (count.setWidth native.bits) :: stack) := by
  rw [ilGenUIntNative, run_append, run_ilGenUInt32, except_bind_ok, ← ofInt_toNat]
  rfl

theorem toNat_count (count : ILUInt32) : (count.setWidth native.bits).toNat = count.toNat := by
  apply BitVec.toNat_setWidth_of_le
  cases native <;> decide

theorem run_shiftBy_int32 (op : ShiftOp) (count : ILUInt32) (x : ILInt32) :
    run lib (shiftBy op count) (.int32 x :: stack) =
      .ok (.int32 (op.apply x count.toNat) :: stack) := by
  rw [shiftBy, run_append, run_ilGenUIntNative, ← @toNat_count native]
  rfl

theorem run_shiftBy_int64 (op : ShiftOp) (count : ILUInt32) (x : ILInt64) :
    run lib (shiftBy op count) (.int64 x :: stack) =
      .ok (.int64 (op.apply x count.toNat) :: stack) := by
  rw [shiftBy, run_append, run_ilGenUIntNative, ← @toNat_count native]
  rfl

theorem run_and_int32 (x y : ILUInt32) :
    run lib (ilGenUInt32 y ++ [.bin .and]) (.int32 x :: stack) =
      .ok (.int32 (x &&& y) :: stack) := by
  rw [run_append, run_ilGenUInt32]
  rfl

theorem run_and_int64 (x y : ILUInt64) :
    run lib (ilGenUInt64 y ++ [.bin .and]) (.int64 x :: stack) =
      .ok (.int64 (x &&& y) :: stack) := by
  rw [run_append, run_ilGenUInt64]
  rfl

theorem run_conv_i1 (x : ILInt32) : run lib [.conv .i1] (.int32 x :: stack) =
    .ok (.int32 ((x.setWidth 8).signExtend 32) :: stack) := by
  rw [← ofInt_toInt x (by decide)]
  rfl

theorem run_conv_i2 (x : ILInt32) : run lib [.conv .i2] (.int32 x :: stack) =
    .ok (.int32 ((x.setWidth 16).signExtend 32) :: stack) := by
  rw [← ofInt_toInt x (by decide)]
  rfl

theorem run_conv_u1 (x : ILInt32) : run lib [.conv .u1] (.int32 x :: stack) =
    .ok (.int32 ((x.setWidth 8).setWidth 32) :: stack) := by
  rw [← ofInt_toInt x (by decide)]
  rfl

theorem run_conv_u2 (x : ILInt32) : run lib [.conv .u2] (.int32 x :: stack) =
    .ok (.int32 ((x.setWidth 16).setWidth 32) :: stack) := by
  rw [← ofInt_toInt x (by decide)]
  rfl

/-! ### Loading a field -/

section Load

variable (overflow : ShiftOverflow) {start size : ILUInt32}

section Apply

variable {w c : Nat} (x : BitVec w) (hc : c < w)
include hc

theorem apply_shr : ShiftOp.shr.apply x c = x.sshiftRight c := by
  rw [ShiftOp.apply, Nat.mod_eq_of_lt hc]

theorem apply_shrUn : ShiftOp.shrUn.apply x c = x >>> c := by
  rw [ShiftOp.apply, Nat.mod_eq_of_lt hc]

theorem apply_shl : ShiftOp.shl.apply x c = x <<< c := by
  rw [ShiftOp.apply, Nat.mod_eq_of_lt hc]

end Apply

theorem toNat_eq_zero_iff {x : ILUInt32} : x = 0 ↔ x.toNat = 0 :=
  BitVec.toNat_inj.symm

theorem run_rawToBitField_int32 (hpos : 0 < size.toNat)
    (hsize : start.toNat + size.toNat ≤ 32) (x : ILInt32) :
    run lib (rawToBitField overflow .int32 start size) (.int32 x :: stack) =
      .ok (.int32 ((x.extractLsb' start.toNat size.toNat).signExtend 32) :: stack) := by
  have hsum : (start + size).toNat = start.toNat + size.toNat := by
    rw [BitVec.toNat_add]
    exact Nat.mod_eq_of_lt (by omega)
  have hlow (n : Nat) : x.extractLsb' 0 n = x.setWidth n := by
    rw [← BitField.setWidth_ushiftRight, BitVec.ushiftRight_zero]
  unfold rawToBitField
  dsimp only
  split_ifs with hbyte htop hstart hshort htop hstart hshift
  · have hn : size.toNat = 8 := congrArg BitVec.toNat hbyte
    have hs : start.toNat = 24 := congrArg BitVec.toNat htop
    rw [run_shiftBy_int32, apply_shr x (by omega), hn, hs,
      @BitField.sshiftRight_top 32 24 8 x (by decide) (by decide)]
  · have hn : size.toNat = 8 := congrArg BitVec.toNat hbyte
    rw [run_append, run_shiftBy_int32, except_bind_ok, run_conv_i1, apply_shr x (by omega), hn,
      BitField.setWidth_sshiftRight x (by omega)]
  · have hn : size.toNat = 8 := congrArg BitVec.toNat hbyte
    have hs : start.toNat = 0 := toNat_eq_zero_iff.1 (not_not.1 hstart)
    rw [run_conv_i1, hn, hs, hlow]
  · have hn : size.toNat = 16 := congrArg BitVec.toNat hshort
    have hs : start.toNat = 16 := congrArg BitVec.toNat htop
    rw [run_shiftBy_int32, apply_shr x (by omega), hn, hs,
      @BitField.sshiftRight_top 32 16 16 x (by decide) (by decide)]
  · have hn : size.toNat = 16 := congrArg BitVec.toNat hshort
    rw [run_append, run_shiftBy_int32, except_bind_ok, run_conv_i2, apply_shr x (by omega), hn,
      BitField.setWidth_sshiftRight x (by omega)]
  · have hn : size.toNat = 16 := congrArg BitVec.toNat hshort
    have hs : start.toNat = 0 := toNat_eq_zero_iff.1 (not_not.1 hstart)
    rw [run_conv_i2, hn, hs, hlow]
  · have hup : (32 - (start + size)).toNat = 32 - (start.toNat + size.toNat) := by
      rw [BitVec.toNat_sub_of_le (by rw [BitVec.le_def, hsum]; exact hsize), hsum]
      rfl
    have hdown : (32 - size).toNat = 32 - size.toNat := by
      rw [BitVec.toNat_sub_of_le (by rw [BitVec.le_def]; exact le_of_add_le_right hsize)]
      rfl
    rw [run_append, run_shiftBy_int32, except_bind_ok, run_shiftBy_int32, hup, hdown,
      apply_shl x (by omega), apply_shr _ (by omega), BitField.sshiftRight_shiftLeft x hpos hsize]
  · have hdown : (32 - size).toNat = 32 - size.toNat := by
      rw [BitVec.toNat_sub_of_le (by rw [BitVec.le_def]; exact le_of_add_le_right hsize)]
      rfl
    have htop : start.toNat + size.toNat = 32 := by
      rw [BitVec.lt_def, hsum, not_lt] at hshift
      exact le_antisymm hsize hshift
    rw [List.nil_append, run_shiftBy_int32, hdown, apply_shr x (by omega),
      ← BitField.sshiftRight_top x hpos htop]
    congr 4
    omega

theorem run_shiftDown_int32 (hstart : start.toNat < 32) (x : ILInt32) :
    run lib (if start ≠ 0 then shiftBy .shrUn start else []) (.int32 x :: stack) =
      .ok (.int32 (x >>> start.toNat) :: stack) := by
  split_ifs with hzero
  · rw [run_shiftBy_int32, apply_shrUn x hstart]
  · have hs : start.toNat = 0 := toNat_eq_zero_iff.1 (not_not.1 hzero)
    rw [hs, BitVec.ushiftRight_zero]
    rfl

theorem run_shiftDown_int64 (hstart : start.toNat < 64) (x : ILInt64) :
    run lib (if start ≠ 0 then shiftBy .shrUn start else []) (.int64 x :: stack) =
      .ok (.int64 (x >>> start.toNat) :: stack) := by
  split_ifs with hzero
  · rw [run_shiftBy_int64, apply_shrUn x hstart]
  · have hs : start.toNat = 0 := toNat_eq_zero_iff.1 (not_not.1 hzero)
    rw [hs, BitVec.ushiftRight_zero]
    rfl

theorem run_rawToBitField_uint32 (hpos : 0 < size.toNat)
    (hsize : start.toNat + size.toNat ≤ 32)
    (hmask : wordMask overflow size = BitField.mask 32 size.toNat) (x : ILInt32) :
    run lib (rawToBitField overflow .uint32 start size) (.int32 x :: stack) =
      .ok (.int32 ((x.extractLsb' start.toNat size.toNat).setWidth 32) :: stack) := by
  unfold rawToBitField
  dsimp only
  rw [run_append, run_shiftDown_int32 lib stack (by omega), except_bind_ok]
  split_ifs with hbyte hshort
  · have hn : size.toNat = 8 := congrArg BitVec.toNat hbyte
    rw [run_conv_u1, hn, BitField.setWidth_ushiftRight]
  · have hn : size.toNat = 16 := congrArg BitVec.toNat hshort
    rw [run_conv_u2, hn, BitField.setWidth_ushiftRight]
  · rw [run_and_int32, hmask, BitField.ushiftRight_and x hsize]

theorem run_rawToBitField_int64 (hpos : 0 < size.toNat)
    (hsize : start.toNat + size.toNat ≤ 64) (x : ILInt64) :
    run lib (rawToBitField overflow .int64 start size) (.int64 x :: stack) =
      .ok (.int64 ((x.extractLsb' start.toNat size.toNat).signExtend 64) :: stack) := by
  have hsum : (start + size).toNat = start.toNat + size.toNat := by
    rw [BitVec.toNat_add]
    exact Nat.mod_eq_of_lt (by omega)
  have hdown : (64 - size).toNat = 64 - size.toNat := by
    rw [BitVec.toNat_sub_of_le (by rw [BitVec.le_def]; exact le_of_add_le_right hsize)]
    rfl
  unfold rawToBitField
  dsimp only
  split_ifs with hshift
  · have hup : (64 - (start + size)).toNat = 64 - (start.toNat + size.toNat) := by
      rw [BitVec.toNat_sub_of_le (by rw [BitVec.le_def, hsum]; exact hsize), hsum]
      rfl
    have hlt : start.toNat + size.toNat < 64 := by
      rw [BitVec.lt_def, hsum] at hshift
      exact hshift
    rw [run_append, run_shiftBy_int64, except_bind_ok, run_shiftBy_int64, hup, hdown,
      apply_shl x (by omega), apply_shr _ (by omega), BitField.sshiftRight_shiftLeft x hpos hsize]
  · have htop : start.toNat + size.toNat = 64 := by
      rw [BitVec.lt_def, hsum, not_lt] at hshift
      exact le_antisymm hsize hshift
    have hstart : 64 - size.toNat = start.toNat := by omega
    rw [List.nil_append, run_shiftBy_int64, hdown, hstart, apply_shr x (by omega),
      BitField.sshiftRight_top x hpos htop]

theorem run_rawToBitField_uint64 (hpos : 0 < size.toNat)
    (hsize : start.toNat + size.toNat ≤ 64)
    (hmask : longMask overflow size = BitField.mask 64 size.toNat) (x : ILInt64) :
    run lib (rawToBitField overflow .uint64 start size) (.int64 x :: stack) =
      .ok (.int64 ((x.extractLsb' start.toNat size.toNat).setWidth 64) :: stack) := by
  unfold rawToBitField
  dsimp only
  rw [List.append_assoc, run_append, run_shiftDown_int64 lib stack (by omega), except_bind_ok,
    run_and_int64, hmask, BitField.ushiftRight_and x hsize]

end Load

/-! ### Storing a field -/

section Store

variable (overflow : ShiftOverflow) {start size : ILUInt32}

theorem run_shiftUp_int32 (hstart : start.toNat < 32) (x : ILInt32) :
    run lib (if start ≠ 0 then shiftBy .shl start else []) (.int32 x :: stack) =
      .ok (.int32 (x <<< start.toNat) :: stack) := by
  split_ifs with hzero
  · rw [run_shiftBy_int32, apply_shl x hstart]
  · have hs : start.toNat = 0 := toNat_eq_zero_iff.1 (not_not.1 hzero)
    rw [hs, BitVec.shiftLeft_zero]
    rfl

theorem run_shiftUp_int64 (hstart : start.toNat < 64) (x : ILInt64) :
    run lib (if start ≠ 0 then shiftBy .shl start else []) (.int64 x :: stack) =
      .ok (.int64 (x <<< start.toNat) :: stack) := by
  split_ifs with hzero
  · rw [run_shiftBy_int64, apply_shl x hstart]
  · have hs : start.toNat = 0 := toNat_eq_zero_iff.1 (not_not.1 hzero)
    rw [hs, BitVec.shiftLeft_zero]
    rfl

theorem run_bitFieldToRaw_uint32 (hstart : start.toNat < 32) (x : ILInt32) :
    run lib (bitFieldToRaw overflow .uint32 start size) (.int32 x :: stack) =
      .ok (.int32 ((x &&& wordMask overflow size) <<< start.toNat) :: stack) := by
  unfold bitFieldToRaw
  dsimp only
  rw [run_append, run_and_int32, except_bind_ok, run_shiftUp_int32 lib stack hstart]

theorem run_bitFieldToRaw_uint64 (hstart : start.toNat < 64) (x : ILInt64) :
    run lib (bitFieldToRaw overflow .uint64 start size) (.int64 x :: stack) =
      .ok (.int64 ((x &&& longMask overflow size) <<< start.toNat) :: stack) := by
  unfold bitFieldToRaw
  dsimp only
  rw [run_append, run_and_int64, except_bind_ok, run_shiftUp_int64 lib stack hstart]

end Store

/-! ### All types -/

section Types

variable (overflow : ShiftOverflow) {t : ILMachineType} {start size : ILUInt32}

/-- The width of the values of a type on the stack. -/
def wordBits (t : ILMachineType) : Nat := if isLong t then 64 else 32

theorem run_rawToBitField_word (ht : t ∈ bitFieldTypes) (hlong : ¬ isLong t)
    (hpos : 0 < size.toNat) (hsize : start.toNat + size.toNat ≤ 32)
    (hmask : wordMask overflow size = BitField.mask 32 size.toNat) (x : ILInt32) :
    run lib (rawToBitField overflow t start size) (.int32 x :: stack) =
      .ok (.int32 (extended t (x.extractLsb' start.toNat size.toNat) 32) :: stack) := by
  have hsigned := run_rawToBitField_int32 lib stack overflow hpos hsize x
  have hunsigned := run_rawToBitField_uint32 lib stack overflow hpos hsize hmask x
  cases t with
  | int8 | int16 | int32 => exact hsigned
  | uint8 | uint16 | char | uint32 => exact hunsigned
  | int64 | uint64 => exact absurd (by decide) hlong
  | _ => exact absurd ht (by decide)

theorem run_rawToBitField_long (hlong : isLong t) (hpos : 0 < size.toNat)
    (hsize : start.toNat + size.toNat ≤ 64)
    (hmask : longMask overflow size = BitField.mask 64 size.toNat) (x : ILInt64) :
    run lib (rawToBitField overflow t start size) (.int64 x :: stack) =
      .ok (.int64 (extended t (x.extractLsb' start.toNat size.toNat) 64) :: stack) := by
  obtain rfl | rfl := hlong
  · exact run_rawToBitField_int64 lib stack overflow hpos hsize x
  · exact run_rawToBitField_uint64 lib stack overflow hpos hsize hmask x

/-- The value with its bits in the place of the field. -/
def rawValue (start size : ILUInt32) : StackValue native → StackValue native
  | .int32 x => .int32 ((x &&& wordMask overflow size) <<< start.toNat)
  | .int64 x => .int64 ((x &&& longMask overflow size) <<< start.toNat)
  | x => x

theorem run_bitFieldToRaw (ht : t ∈ bitFieldTypes) (hstart : start.toNat < wordBits t)
    {v : StackValue native} (hv : HasType t v) :
    run lib (bitFieldToRaw overflow t start size) (v :: stack) =
      .ok (rawValue overflow start size v :: stack) := by
  cases hv with
  | word hlong x =>
    rw [wordBits, if_neg hlong] at hstart
    have hword := @run_bitFieldToRaw_uint32 native lib stack overflow start size hstart x
    cases t with
    | int64 | uint64 => exact absurd (by decide) hlong
    | boolean | nativeInt | nativeUInt | decimal => exact absurd ht (by decide)
    | _ => exact hword
  | long hlong x =>
    rw [wordBits, if_pos hlong] at hstart
    have hlongWord := @run_bitFieldToRaw_uint64 native lib stack overflow start size hstart x
    obtain rfl | rfl := hlong
    · exact hlongWord
    · exact hlongWord

/-- The unit that is stored for a value, over the bits that are there. -/
def insertValue (start size : ILUInt32) : StackValue native → StackValue native → StackValue native
  | .int32 w, .int32 x => .int32 (BitField.insert w x (wordMask overflow size) start.toNat)
  | .int64 w, .int64 x => .int64 (BitField.insert w x (longMask overflow size) start.toNat)
  | w, _ => w

theorem run_otherBits (node : CBitFieldNode) {v w : StackValue native}
    (hv : HasType node.machineType v) (hw : HasType node.machineType w) :
    run lib (node.otherBits overflow ++ [ILOp.bin .or])
      (w :: rawValue overflow node.bitFieldStart node.bitFieldSize v :: stack) =
      .ok (insertValue overflow node.bitFieldStart node.bitFieldSize w v :: stack) := by
  unfold CBitFieldNode.otherBits
  cases hv with
  | word hlong x =>
    cases hw with
    | long hlong' => exact absurd hlong' hlong
    | word _ y =>
      have hword : ¬ (node.machineType = .int64 ∨ node.machineType = .uint64) := hlong
      rw [if_neg hword, run_append, run_and_int32]
      rfl
  | long hlong x =>
    cases hw with
    | word hlong' => exact absurd hlong hlong'
    | long _ y =>
      have hword : node.machineType = .int64 ∨ node.machineType = .uint64 := hlong
      rw [if_pos hword, run_append, run_and_int64]
      rfl

theorem hasType_loaded (ht : t ∈ bitFieldTypes) (unit : BitVec (storageBits t)) :
    HasType t (loaded t unit : StackValue native) := by
  cases t with
  | int64 | uint64 => exact .long (by decide) _
  | boolean | nativeInt | nativeUInt | decimal => exact absurd ht (by decide)
  | _ => exact .word (by decide) _

end Types

end Code

/-! ### The code of a field -/

section Access

variable (lib : SystemDecimal) {t : ILMachineType} (offset : ILUInt32)

theorem runAccess_append (code rest : List AccessOp) (s : AccessState native (storageBits t)) :
    runAccess lib t offset (code ++ rest) s =
      (runAccess lib t offset code s).bind (runAccess lib t offset rest) := by
  induction code generalizing s with
  | nil => rfl
  | cons op code ih =>
    rw [List.cons_append, runAccess, runAccess]
    cases op.exec lib t offset s with
    | error fault => rfl
    | ok s => exact ih s

theorem runAccess_op {code : List ILOp} {s : AccessState native (storageBits t)}
    {stack : Stack native} (h : run lib code s.stack = .ok stack) :
    runAccess lib t offset (code.map .op) s = .ok { s with stack := stack } := by
  induction code generalizing s with
  | nil =>
    obtain rfl := Except.ok.inj h
    rfl
  | cons op code ih =>
    rw [run_cons] at h
    rw [List.map_cons, runAccess, AccessOp.exec]
    cases hop : op.exec lib s.stack with
    | error fault =>
      rw [hop] at h
      cases h
    | ok stack' =>
      rw [hop] at h
      exact @ih { s with stack := stack' } h

end Access

namespace CBitFieldNode

section Node

variable (lib : SystemDecimal) (node : CBitFieldNode) (offset : ILUInt32)
  (overflow : ShiftOverflow)

/-- The pointer that the code keeps. -/
def base (addr : BitVec native.bits) : BitVec native.bits :=
  if node.complex ∧ node.hasOffset then addr + offset.setWidth _ else addr

theorem run_addComplexFieldOffset {addr : BitVec native.bits}
    {s : AccessState native (storageBits node.machineType)} :
    runAccess lib node.machineType offset node.addComplexFieldOffset (s.push (.nativeInt addr)) =
      .ok (s.push (.nativeInt (if node.hasOffset then addr + offset.setWidth _ else addr))) := by
  unfold addComplexFieldOffset
  split_ifs
  · rw [← ofInt_toNat offset]
    rfl
  · rfl

/-- The pointer with the offset, where the code adds it. -/
theorem run_base {addr : BitVec native.bits}
    {s : AccessState native (storageBits node.machineType)} :
    runAccess lib node.machineType offset
      (if node.complex then node.addComplexFieldOffset else []) (s.push (.nativeInt addr)) =
      .ok (s.push (.nativeInt (node.base offset addr))) := by
  unfold base
  by_cases hcomplex : node.complex = true
  · simp only [hcomplex, if_true, true_and]
    exact run_addComplexFieldOffset lib node offset
  · simp only [hcomplex]
    rfl

theorem run_loadUnit {addr : BitVec native.bits}
    {s : AccessState native (storageBits node.machineType)} :
    runAccess lib node.machineType offset [if node.complex then .ldind else .ldfld]
      (s.push (.nativeInt (node.base offset addr))) =
      .ok (s.push (loaded node.machineType (s.memory (node.unit offset addr)))) := by
  unfold base unit
  cases node.complex <;> cases node.hasOffset <;> rfl

theorem run_storeUnit {addr : BitVec native.bits} {x : StackValue native}
    {unit : BitVec (storageBits node.machineType)} (hunit : stored node.machineType x = some unit)
    {s : AccessState native (storageBits node.machineType)} :
    runAccess lib node.machineType offset [if node.complex then .stind else .stfld]
      ((s.push (.nativeInt (node.base offset addr))).push x) =
      .ok { s with memory := Function.update s.memory (node.unit offset addr) unit } := by
  have hstored : orInvalid (stored node.machineType x) = .ok unit := by
    rw [hunit, orInvalid_some]
  unfold base CBitFieldNode.unit
  cases node.complex <;> cases node.hasOffset <;>
    simp [runAccess, AccessOp.exec, AccessState.push, hstored]

/-- What is loaded from a field. -/
theorem run_genValue {addr : BitVec native.bits}
    {s : AccessState native (storageBits node.machineType)} {value : StackValue native}
    (hvalue : run lib (rawToBitField overflow node.machineType node.bitFieldStart
      node.bitFieldSize) (loaded node.machineType (s.memory (node.unit offset addr)) :: s.stack) =
        .ok (value :: s.stack)) :
    node.access overflow lib offset addr s = .ok (s.push value) := by
  have hload : (if node.complex then node.addComplexFieldOffset ++ [.ldind] else [.ldfld]) =
      (if node.complex then node.addComplexFieldOffset else []) ++
        [if node.complex then AccessOp.ldind else .ldfld] := by
    cases node.complex <;> rfl
  rw [access, genValue, hload, List.append_assoc, runAccess_append, run_base, except_bind_ok,
    runAccess_append, run_loadUnit, except_bind_ok]
  exact runAccess_op lib offset hvalue

theorem run_prepare {addr : BitVec native.bits}
    {s : AccessState native (storageBits node.machineType)} :
    runAccess lib node.machineType offset node.prepare (s.push (.nativeInt addr)) =
      .ok { s with
        stack := .nativeInt (node.base offset addr) :: s.stack
        locals :=
          Function.update s.locals node.tempPtrVar (.nativeInt (node.base offset addr)) } := by
  rw [prepare, runAccess_append, run_base, except_bind_ok]
  rfl

/-- The variables after the value has been kept. -/
def keep (leave : Option Nat) (v : StackValue native) (locals : Nat → StackValue native) :
    Nat → StackValue native :=
  leave.elim locals fun num => Function.update locals num v

theorem run_leave {t : ILMachineType} (leave : Option Nat) (v : StackValue native)
    (s : AccessState native (storageBits t)) :
    runAccess lib t offset (leave.toList.flatMap fun num => [.dup, .stloc num]) (s.push v) =
      .ok { s.push v with locals := keep leave v s.locals } := by
  cases leave <;> rfl

theorem run_reload {t : ILMachineType} (leave : Option Nat) (v : StackValue native)
    (locals : Nat → StackValue native) {s : AccessState native (storageBits t)}
    (hlocals : s.locals = keep leave v locals) :
    runAccess lib t offset (leave.toList.map .ldloc ++ (none : Option Nat).toList.map .ldloc) s =
      .ok { s with stack := leave.toList.map (fun _ => v) ++ s.stack } := by
  cases leave with
  | none => rfl
  | some num =>
    have hvalue : s.locals num = v := by
      rw [hlocals]
      exact Function.update_self ..
    simp [runAccess, AccessOp.exec, AccessState.push, hvalue]

/-- What a field has after a store. -/
theorem run_store (ht : node.machineType ∈ bitFieldTypes)
    (hstart : node.bitFieldStart.toNat < wordBits node.machineType) {leave : Option Nat}
    (hleave : leave ≠ some node.tempPtrVar) {v : StackValue native}
    (hv : HasType node.machineType v) {addr : BitVec native.bits}
    {s : AccessState native (storageBits node.machineType)}
    {unit : BitVec (storageBits node.machineType)}
    (hunit : stored node.machineType (insertValue overflow node.bitFieldStart node.bitFieldSize
      (loaded node.machineType (s.memory (node.unit offset addr))) v) = some unit) :
    ∃ locals, node.assign overflow lib offset leave addr v s = .ok
      { stack := leave.toList.map (fun _ => v) ++ s.stack
        locals := locals
        memory := Function.update s.memory (node.unit offset addr) unit } := by
  have hraw (stack : Stack native) := @run_bitFieldToRaw native lib stack overflow
    node.machineType node.bitFieldStart node.bitFieldSize ht hstart v hv
  have hother (stack : Stack native) := run_otherBits lib stack overflow node hv
    (hasType_loaded ht (s.memory (node.unit offset addr)))
  have hpointer : keep leave v (Function.update s.locals node.tempPtrVar
      (.nativeInt (node.base offset addr))) node.tempPtrVar =
        .nativeInt (node.base offset addr) := by
    cases leave with
    | none => exact Function.update_self ..
    | some num =>
      have hne : node.tempPtrVar ≠ num := fun heq => hleave (congrArg some heq.symm)
      exact (Function.update_of_ne hne ..).trans (Function.update_self ..)
  -- the state without what the code has on the stack
  let kept : AccessState native (storageBits node.machineType) :=
    { s with locals := keep leave v (Function.update s.locals node.tempPtrVar
      (.nativeInt (node.base offset addr))) }
  let raw := rawValue overflow node.bitFieldStart node.bitFieldSize v
  have hload : runAccess lib node.machineType offset
      [.ldloc node.tempPtrVar, if node.complex then .ldind else .ldfld]
      ((kept.push (.nativeInt (node.base offset addr))).push raw) =
      .ok (((kept.push (.nativeInt (node.base offset addr))).push raw).push
        (loaded node.machineType (s.memory (node.unit offset addr)))) := by
    have hunitLoad := @run_loadUnit native lib node offset addr
      ((kept.push (.nativeInt (node.base offset addr))).push raw)
    rw [← hpointer] at hunitLoad
    rw [← hpointer]
    exact hunitLoad
  refine ⟨kept.locals, ?_⟩
  rw [assign, run_prepare, except_bind_ok, store, runAccess_append, run_leave, except_bind_ok,
    runAccess_append, runAccess_op lib offset (hraw _), except_bind_ok, runAccess_append]
  refine (congrArg (fun r => Except.bind r _) hload).trans ?_
  rw [except_bind_ok, runAccess_append, runAccess_op lib offset (hother _), except_bind_ok,
    runAccess_append]
  refine (congrArg (fun r => Except.bind r _) (run_storeUnit lib node offset hunit)).trans ?_
  exact run_reload lib offset leave v _ rfl

end Node

end CBitFieldNode

/-! ### Bits -/

section Bits

variable {t : ILMachineType} {sb w start size : Nat}

theorem getLsbD_extended (hle : sb ≤ w) (u : BitVec sb) {i : Nat} (hi : i < sb) :
    (extended t u w).getLsbD i = u.getLsbD i := by
  have hiw : i < w := by omega
  unfold extended
  split_ifs
  · rw [BitVec.getLsbD_signExtend, if_pos hi, decide_eq_true hiw, Bool.true_and]
  · rw [BitVec.getLsbD_setWidth, decide_eq_true hiw, Bool.true_and]

/-- The unit with the value in the field. -/
def newUnit (t : ILMachineType) (u : BitVec sb) (x : BitVec w) (start size : Nat) : BitVec sb :=
  (BitField.insert (extended t u w) x (BitField.mask w size) start).setWidth sb

theorem newUnit_outside (hle : sb ≤ w) (hsize : start + size ≤ sb) (u : BitVec sb) (x : BitVec w)
    {i : Nat} (hi : i < sb) (houtside : ¬ (start ≤ i ∧ i < start + size)) :
    (newUnit t u x start size).getLsbD i = u.getLsbD i := by
  rw [newUnit, BitVec.getLsbD_setWidth, decide_eq_true hi, Bool.true_and,
    BitField.getLsbD_insert _ _ (by omega) (by omega), if_neg houtside, getLsbD_extended hle u hi]

theorem extractLsb'_newUnit (hle : sb ≤ w) (hsize : start + size ≤ sb) (u : BitVec sb)
    (x : BitVec w) : (extended t (newUnit t u x start size) w).extractLsb' start size =
      x.setWidth size := by
  apply BitVec.eq_of_getLsbD_eq
  intro i hi
  rw [← BitField.extractLsb'_insert (extended t u w) x (show start + size ≤ w by omega),
    BitVec.getLsbD_extractLsb', BitVec.getLsbD_extractLsb',
    getLsbD_extended hle _ (show start + i < sb by omega), newUnit, BitVec.getLsbD_setWidth,
    decide_eq_true (show start + i < sb by omega), Bool.true_and]

theorem loaded_word (ht : t ∈ bitFieldTypes) (hlong : ¬ isLong t) (u : BitVec (storageBits t)) :
    (loaded t u : StackValue native) = .int32 (extended t u 32) := by
  cases t with
  | int64 | uint64 => exact absurd (by decide) hlong
  | boolean | nativeInt | nativeUInt | decimal => exact absurd ht (by decide)
  | _ => rfl

theorem loaded_long (hlong : isLong t) (u : BitVec (storageBits t)) :
    (loaded t u : StackValue native) = .int64 (extended t u 64) := by
  obtain rfl | rfl := hlong
  · exact congrArg StackValue.int64 ((BitVec.setWidth_eq u).trans (BitVec.signExtend_eq u).symm)
  · rfl

theorem storageBits_le_wordBits (t : ILMachineType) : storageBits t ≤ wordBits t := by
  cases t <;> decide

end Bits

/-! ### Soundness -/

section Sound

variable {overflow : ShiftOverflow} {node : CBitFieldNode}

theorem wordMask_eq {size : ILUInt32} (h : size.toNat < 32 ∨ size.toNat = 32 ∧ overflow.word = 0) :
    wordMask overflow size = BitField.mask 32 size.toNat := by
  unfold wordMask
  obtain hlt | ⟨heq, hzero⟩ := h
  · rw [if_pos hlt]
    rfl
  · rw [if_neg (by omega), hzero, heq]
    rfl

theorem longMask_eq {size : ILUInt32} (h : size.toNat < 64 ∨ size.toNat = 64 ∧ overflow.long = 0) :
    longMask overflow size = BitField.mask 64 size.toNat := by
  unfold longMask
  obtain hlt | ⟨heq, hzero⟩ := h
  · rw [if_pos hlt]
    rfl
  · rw [if_neg (by omega), hzero, heq]
    rfl

/-- What a shift by the width of the values of a type gives. -/
def ShiftOverflow.isZero (overflow : ShiftOverflow) (t : ILMachineType) : Prop :=
  if isLong t then overflow.long = 0 else overflow.word = 0

theorem sound_of_masks (ht : node.machineType ∈ bitFieldTypes)
    (hpos : 0 < node.bitFieldSize.toNat)
    (hsize : node.bitFieldStart.toNat + node.bitFieldSize.toNat ≤ storageBits node.machineType)
    (hmask : node.bitFieldSize.toNat < wordBits node.machineType ∨
      overflow.isZero node.machineType) : node.Sound overflow := by
  have hbits := storageBits_le_wordBits node.machineType
  intro native lib offset leave addr v before hleave hv
  cases hv with
  | word hlong x =>
    have hword : wordBits node.machineType = 32 := if_neg hlong
    rw [hword] at hmask hbits
    have hmask : wordMask overflow node.bitFieldSize =
        BitField.mask 32 node.bitFieldSize.toNat := by
      apply wordMask_eq
      rw [ShiftOverflow.isZero, if_neg hlong] at hmask
      by_cases hlt : node.bitFieldSize.toNat < 32
      · exact .inl hlt
      · exact .inr ⟨by omega, hmask.resolve_left hlt⟩
    have hunit : stored node.machineType (insertValue overflow node.bitFieldStart
        node.bitFieldSize (loaded node.machineType (before.memory (node.unit offset addr)))
        (.int32 x : StackValue native)) = some (newUnit node.machineType
          (before.memory (node.unit offset addr)) x node.bitFieldStart.toNat
          node.bitFieldSize.toNat) := by
      rw [loaded_word ht hlong, insertValue, hmask]
      exact if_neg hlong
    obtain ⟨locals, hassign⟩ := CBitFieldNode.run_store lib node offset overflow ht
      (by omega) hleave (.word hlong x) hunit
    refine ⟨_, hassign, rfl, fun a ha => Function.update_of_ne ha .., ?_, ?_⟩
    · intro i hi houtside
      dsimp only
      rw [Function.update_self]
      exact newUnit_outside hbits hsize _ _ hi houtside
    · apply CBitFieldNode.run_genValue
      dsimp only
      rw [Function.update_self, loaded_word ht hlong,
        run_rawToBitField_word lib _ overflow ht hlong hpos (by omega) hmask,
        extractLsb'_newUnit hbits hsize]
      rfl
  | long hlong x =>
    have hword : wordBits node.machineType = 64 := if_pos hlong
    rw [hword] at hmask hbits
    have hmask : longMask overflow node.bitFieldSize =
        BitField.mask 64 node.bitFieldSize.toNat := by
      apply longMask_eq
      rw [ShiftOverflow.isZero, if_pos hlong] at hmask
      by_cases hlt : node.bitFieldSize.toNat < 64
      · exact .inl hlt
      · exact .inr ⟨by omega, hmask.resolve_left hlt⟩
    have hunit : stored node.machineType (insertValue overflow node.bitFieldStart
        node.bitFieldSize (loaded node.machineType (before.memory (node.unit offset addr)))
        (.int64 x : StackValue native)) = some (newUnit node.machineType
          (before.memory (node.unit offset addr)) x node.bitFieldStart.toNat
          node.bitFieldSize.toNat) := by
      rw [loaded_long hlong, insertValue, hmask]
      exact if_pos hlong
    obtain ⟨locals, hassign⟩ := CBitFieldNode.run_store lib node offset overflow ht
      (by omega) hleave (.long hlong x) hunit
    refine ⟨_, hassign, rfl, fun a ha => Function.update_of_ne ha .., ?_, ?_⟩
    · intro i hi houtside
      dsimp only
      rw [Function.update_self]
      exact newUnit_outside hbits hsize _ _ hi houtside
    · apply CBitFieldNode.run_genValue
      dsimp only
      rw [Function.update_self, loaded_long hlong,
        run_rawToBitField_long lib _ overflow hlong hpos (by omega) hmask,
        extractLsb'_newUnit hbits hsize]
      rfl

/-- Any class will do where no instruction of a decimal is run. -/
def noDecimals : SystemDecimal where
  opImplicit _ _ := ⟨0, 0, 0, 0⟩
  opExplicit _ _ := none
  opEquality _ _ := false
  opAddition _ _ := none
  opSubtraction _ _ := none
  ctor _ _ _ _ _ := none

/-- What a sound field has for a value that is stored over zeros. -/
theorem value_of_sound (hsound : node.Sound overflow) (ht : node.machineType ∈ bitFieldTypes)
    (hstart : node.bitFieldStart.toNat < wordBits node.machineType) {v value : StackValue .int32}
    (hv : HasType node.machineType v) {unit : BitVec (storageBits node.machineType)}
    (hunit : stored node.machineType (insertValue overflow node.bitFieldStart node.bitFieldSize
      (loaded node.machineType 0) v) = some unit)
    (hload : ∀ stack, run noDecimals (rawToBitField overflow node.machineType node.bitFieldStart
      node.bitFieldSize) (loaded node.machineType unit :: stack) = .ok (value :: stack)) :
    value = reduced node.machineType node.bitFieldSize.toNat v := by
  let zeros : AccessState .int32 (storageBits node.machineType) :=
    ⟨[], fun _ => .int32 0, fun _ => 0⟩
  have hleave : (none : Option Nat) ≠ some node.tempPtrVar := by simp
  obtain ⟨after, hassign, -, -, -, haccess⟩ := hsound .int32 noDecimals 0 none 0 v zeros hleave hv
  obtain ⟨locals, hassign'⟩ := @CBitFieldNode.run_store .int32 noDecimals node 0 overflow ht hstart
    none hleave v hv 0 zeros unit hunit
  obtain rfl := Except.ok.inj (hassign'.symm.trans hassign)
  let after : AccessState .int32 (storageBits node.machineType) :=
    ⟨zeros.stack, locals, Function.update zeros.memory (node.unit 0 0) unit⟩
  have hunit' : after.memory (node.unit 0 0) = unit := Function.update_self ..
  have hvalue := @CBitFieldNode.run_genValue .int32 noDecimals node 0 overflow 0 after value
    (by rw [hunit']; exact hload _)
  exact (List.cons.inj (congrArg AccessState.stack
    (Except.ok.inj (hvalue.symm.trans haccess)))).1

theorem insert_ones {n : Nat} (mask : BitVec n) :
    BitField.insert 0 (BitVec.allOnes n) mask 0 = mask := by
  rw [BitField.insert, BitVec.shiftLeft_zero, BitVec.allOnes_and, BitVec.shiftLeft_zero]
  simp

theorem extended_zero (t : ILMachineType) (sb w : Nat) : extended t (0 : BitVec sb) w = 0 := by
  have hsign : (0 : BitVec sb).signExtend w = 0 := by
    rw [BitVec.signExtend_eq_setWidth_of_msb_false (by simp)]
    simp
  unfold extended
  split_ifs
  · exact hsign
  · simp

/-- A field of a whole word, after all ones are stored over zeros, has what the code takes for
the mask. -/
theorem mask_of_sound_word {t : ILMachineType} (ht : t = .int32 ∨ t = .uint32)
    {complex hasOffset : Bool} {tempPtrVar : Nat}
    (hsound : CBitFieldNode.Sound overflow ⟨t, 0, 32, complex, hasOffset, tempPtrVar⟩) :
    wordMask overflow 32 = BitVec.allOnes 32 := by
  have hload (stack : Stack .int32) : run noDecimals (rawToBitField overflow t 0 32)
      (.int32 (wordMask overflow 32) :: stack) = .ok (.int32 (wordMask overflow 32) :: stack) := by
    obtain rfl | rfl := ht
    · rw [run_rawToBitField_int32 noDecimals stack overflow (by decide) (by decide)]
      simp
    · have hcode : rawToBitField overflow .uint32 0 32 =
          ilGenUInt32 (wordMask overflow 32) ++ [.bin .and] := rfl
      rw [hcode, run_and_int32, BitVec.and_self]
  have hlong : ¬ isLong t := by obtain rfl | rfl := ht <;> decide
  have hmem : t ∈ bitFieldTypes := by obtain rfl | rfl := ht <;> decide
  have hloaded : (loaded t ((wordMask overflow 32).setWidth (storageBits t)) :
      StackValue .int32) = .int32 (wordMask overflow 32) := by
    obtain rfl | rfl := ht <;> simp [loaded, storageBits]
  have hunit : stored t (insertValue overflow 0 32 (loaded t 0 : StackValue .int32)
      (.int32 (BitVec.allOnes 32))) = some ((wordMask overflow 32).setWidth (storageBits t)) := by
    rw [loaded_word hmem hlong, extended_zero]
    refine (congrArg (fun x => stored t (StackValue.int32 x)) (insert_ones _)).trans ?_
    exact if_neg hlong
  have hstart : (0 : ILUInt32).toNat < wordBits t := by
    rw [wordBits, if_neg hlong]
    decide
  have hvalue := value_of_sound hsound hmem hstart (.word hlong _) hunit fun stack =>
    (congrArg (fun x => run noDecimals (rawToBitField overflow t 0 32) (x :: stack))
      hloaded).trans (hload stack)
  obtain rfl | rfl := ht
  · exact StackValue.int32.inj hvalue
  · exact StackValue.int32.inj hvalue

theorem mask_of_sound_long {t : ILMachineType} (ht : isLong t)
    {complex hasOffset : Bool} {tempPtrVar : Nat}
    (hsound : CBitFieldNode.Sound overflow ⟨t, 0, 64, complex, hasOffset, tempPtrVar⟩) :
    longMask overflow 64 = BitVec.allOnes 64 := by
  have hload (stack : Stack .int32) : run noDecimals (rawToBitField overflow t 0 64)
      (.int64 (longMask overflow 64) :: stack) = .ok (.int64 (longMask overflow 64) :: stack) := by
    obtain rfl | rfl := ht
    · rw [run_rawToBitField_int64 noDecimals stack overflow (by decide) (by decide)]
      simp
    · have hcode : rawToBitField overflow .uint64 0 64 =
          ilGenUInt64 (longMask overflow 64) ++ [.bin .and] := rfl
      rw [hcode, run_and_int64, BitVec.and_self]
  have hmem : t ∈ bitFieldTypes := by obtain rfl | rfl := ht <;> decide
  have hloaded : (loaded t ((longMask overflow 64).setWidth (storageBits t)) :
      StackValue .int32) = .int64 (longMask overflow 64) := by
    obtain rfl | rfl := ht <;> simp [loaded, storageBits]
  have hunit : stored t (insertValue overflow 0 64 (loaded t 0 : StackValue .int32)
      (.int64 (BitVec.allOnes 64))) = some ((longMask overflow 64).setWidth (storageBits t)) := by
    rw [loaded_long ht, extended_zero]
    refine (congrArg (fun x => stored t (StackValue.int64 x)) (insert_ones _)).trans ?_
    exact if_pos ht
  have hstart : (0 : ILUInt32).toNat < wordBits t := by
    rw [wordBits, if_pos ht]
    decide
  have hvalue := value_of_sound hsound hmem hstart (.long ht _) hunit fun stack =>
    (congrArg (fun x => run noDecimals (rawToBitField overflow t 0 64) (x :: stack))
      hloaded).trans (hload stack)
  obtain rfl | rfl := ht
  · exact StackValue.int64.inj hvalue
  · exact StackValue.int64.inj hvalue

/-- Bit fields are sound but for those of the whole width of a word, whose masks the compiler
that `cscc` is built with has to get right by chance. -/
theorem bitField_sound_iff (overflow : ShiftOverflow) (node : CBitFieldNode)
    (ht : node.machineType ∈ bitFieldTypes) (hpos : 0 < node.bitFieldSize.toNat)
    (hsize : node.bitFieldStart.toNat + node.bitFieldSize.toNat ≤ storageBits node.machineType) :
    node.Sound overflow ↔ node.bitFieldSize.toNat < wordBits node.machineType ∨
      overflow.isZero node.machineType := by
  constructor
  · intro hsound
    by_contra hnot
    obtain ⟨hwide, hoverflow⟩ := not_or.1 hnot
    have hbits := storageBits_le_wordBits node.machineType
    obtain ⟨t, start, size, complex, hasOffset, tempPtrVar⟩ := node
    dsimp only at ht hsize hwide hoverflow hbits
    obtain rfl : start = 0 := toNat_eq_zero_iff.2 (by omega)
    by_cases hlong : isLong t
    · rw [wordBits, if_pos hlong] at hwide hbits
      obtain rfl : size = 64 := BitVec.eq_of_toNat_eq (show size.toNat = 64 by omega)
      refine hoverflow ?_
      rw [ShiftOverflow.isZero, if_pos hlong]
      exact BitVec.sub_left_inj _ |>.1 (mask_of_sound_long hlong hsound)
    · rw [wordBits, if_neg hlong] at hwide hbits
      obtain rfl : size = 32 := BitVec.eq_of_toNat_eq (show size.toNat = 32 by omega)
      have hword : t = .int32 ∨ t = .uint32 := by
        revert ht hlong hsize
        cases t <;> decide
      refine hoverflow ?_
      rw [ShiftOverflow.isZero, if_neg hlong]
      exact BitVec.sub_left_inj _ |>.1 (mask_of_sound_word hword hsound)
  · exact sound_of_masks ht hpos hsize

/-- Three bits of an `unsigned char`, from the second on. -/
theorem bitField_sound_iff_sample : CBitFieldNode.Sound ⟨1, 1⟩ ⟨.uint8, 1, 3, false, false, 0⟩ :=
  (bitField_sound_iff ⟨1, 1⟩ ⟨.uint8, 1, 3, false, false, 0⟩ (by decide) (by decide)
    (by decide)).2 (.inl (by decide))

/-- A field of 32 bits, with a shift that takes the count modulo 32. -/
theorem not_bitField_sound : ¬ CBitFieldNode.Sound ⟨1, 1⟩ ⟨.int32, 0, 32, false, false, 0⟩ := by
  intro hsound
  exact absurd (mask_of_sound_word (.inl rfl) hsound) (by decide)

end Sound

end Pnet.Cscc
