import Pnet.Lib.ByteWindow
import Pnet.Lib.Folds
import Pnet.Support.DigestBlocks

/-! The hash contexts of `il_crypt.h`. The functions `Init`, `Data` and `Finalize` of the five
hashes are alike but for the state, the size of a block and the byte order. -/
namespace Pnet.Support
open Pnet.Lib

/-- What a hash has of its own. -/
structure BlockHash where
  State : Type
  blockSize : Nat
  /-- Where the length stands in the last block. -/
  lengthPosn : Nat
  initial : State
  zero : State
  processBlock : State → List ILUInt8 → State
  writeLength : ILUInt64 → List ILUInt8
  writeState : State → List ILUInt8
  length_writeLength : ∀ bits, lengthPosn + (writeLength bits).length = blockSize
  lengthPosn_lt : lengthPosn < blockSize

/-- A context. The input buffer has room for another byte. -/
structure HashContext (h : BlockHash) where
  input : List ILUInt8
  inputLen : Nat
  state : h.State
  totalLen : ILUInt64
  length_input : input.length = h.blockSize
  inputLen_lt : inputLen < h.blockSize

namespace HashContext

variable {h : BlockHash} (context : HashContext h)

/-- Copies to the input buffer; a full buffer is processed. -/
def fill (part : List ILUInt8) (hpart : context.inputLen + part.length ≤ h.blockSize) :
    HashContext h :=
  have hlength : (patch context.input context.inputLen part).length = h.blockSize :=
    (length_patch (hpart.trans context.length_input.ge)).trans context.length_input
  if hroom : context.inputLen + part.length < h.blockSize then
    { context with
      input := patch context.input context.inputLen part
      inputLen := context.inputLen + part.length
      length_input := hlength
      inputLen_lt := hroom }
  else
    { context with
      input := patch context.input context.inputLen part
      inputLen := 0
      state := h.processBlock context.state (patch context.input context.inputLen part)
      length_input := hlength
      inputLen_lt := (Nat.zero_le _).trans_lt context.inputLen_lt }

/-- The short cut: no point copying the data twice. -/
def direct (block : List ILUInt8) : HashContext h :=
  { context with state := h.processBlock context.state block }

theorem length_take_le (buffer : List ILUInt8) :
    context.inputLen + (buffer.take (h.blockSize - context.inputLen)).length ≤ h.blockSize := by
  have hlt := context.inputLen_lt
  rw [List.length_take]
  omega

def dataLoop (context : HashContext h) (buffer : List ILUInt8) : HashContext h :=
  if buffer = [] then context
  else if context.inputLen = 0 ∧ h.blockSize ≤ buffer.length then
    dataLoop (context.direct (buffer.take h.blockSize)) (buffer.drop h.blockSize)
  else
    dataLoop (context.fill (buffer.take (h.blockSize - context.inputLen))
      (context.length_take_le buffer)) (buffer.drop (h.blockSize - context.inputLen))
termination_by buffer.length
decreasing_by
  all_goals
    have hlt := context.inputLen_lt
    have hpos := List.length_pos_of_ne_nil ‹_›
    rw [List.length_drop]
    omega

/-- The input buffer and its length after the padding has begun, and the state. -/
def beginPadding : h.State × List ILUInt8 × Nat :=
  let input := patch context.input context.inputLen [0x80]
  let inputLen := context.inputLen + 1
  if context.inputLen ≥ h.lengthPosn then
    -- two blocks worth of padding
    let input := patch input inputLen (List.replicate (h.blockSize - inputLen) 0)
    (h.processBlock context.state input, input, 0)
  else (context.state, input, inputLen)

/-- The state after the padding. -/
def pad : h.State :=
  let (state, input, inputLen) := context.beginPadding
  let input := patch input inputLen (List.replicate (h.lengthPosn - inputLen) 0)
  h.processBlock state (patch input h.lengthPosn (h.writeLength (context.totalLen <<< 3)))

end HashContext

namespace BlockHash

variable (h : BlockHash)

/-- The input buffer is what lies in the memory. -/
def init (memory : List ILUInt8) (hmemory : memory.length = h.blockSize) : HashContext h where
  input := memory
  inputLen := 0
  state := h.initial
  totalLen := 0
  length_input := hmemory
  inputLen_lt := (Nat.zero_le _).trans_lt h.lengthPosn_lt

/-- The context is filled with zeros. -/
def blank : HashContext h where
  input := List.replicate h.blockSize 0
  inputLen := 0
  state := h.zero
  totalLen := 0
  length_input := List.length_replicate
  inputLen_lt := (Nat.zero_le _).trans_lt h.lengthPosn_lt

variable {h}

def data (context : HashContext h) (buffer : List ILUInt8) : HashContext h :=
  { context with totalLen := context.totalLen + BitVec.ofNat 64 buffer.length }.dataLoop buffer

/-- The hash is computed if there is a place for it. -/
def finalize (context : HashContext h) (hash : Bool) : Option (List ILUInt8) × HashContext h :=
  (if hash then some (h.writeState context.pad) else none, h.blank)

end BlockHash

/-! ### The five hashes -/

def md5 : BlockHash where
  State := MD5.State
  blockSize := 64
  lengthPosn := 56
  initial := ⟨0x67452301, 0xEFCDAB89, 0x98BADCFE, 0x10325476⟩
  zero := ⟨0, 0, 0, 0⟩
  processBlock := MD5.processBlock
  writeLength bits :=
    writeLongLittle (bits.setWidth 32) ++ writeLongLittle ((bits >>> 32).setWidth 32)
  writeState md5 :=
    writeLongLittle md5.A ++ writeLongLittle md5.B ++ writeLongLittle md5.C ++
      writeLongLittle md5.D
  length_writeLength _ := rfl
  lengthPosn_lt := by decide

def sha : BlockHash where
  State := SHA.State
  blockSize := 64
  lengthPosn := 56
  initial := ⟨0x67452301, 0xEFCDAB89, 0x98BADCFE, 0x10325476, 0xC3D2E1F0⟩
  zero := ⟨0, 0, 0, 0, 0⟩
  processBlock := SHA.processBlock
  writeLength bits :=
    writeLongBig ((bits >>> 32).setWidth 32) ++ writeLongBig (bits.setWidth 32)
  writeState sha :=
    writeLongBig sha.A ++ writeLongBig sha.B ++ writeLongBig sha.C ++ writeLongBig sha.D ++
      writeLongBig sha.E
  length_writeLength _ := rfl
  lengthPosn_lt := by decide

def sha256 : BlockHash where
  State := SHA2.State 32
  blockSize := 64
  lengthPosn := 56
  initial := ⟨0x6a09e667, 0xbb67ae85, 0x3c6ef372, 0xa54ff53a, 0x510e527f, 0x9b05688c, 0x1f83d9ab,
    0x5be0cd19⟩
  zero := ⟨0, 0, 0, 0, 0, 0, 0, 0⟩
  processBlock := SHA256.processBlock
  writeLength bits :=
    writeLongBig ((bits >>> 32).setWidth 32) ++ writeLongBig (bits.setWidth 32)
  writeState sha :=
    writeLongBig sha.A ++ writeLongBig sha.B ++ writeLongBig sha.C ++ writeLongBig sha.D ++
      writeLongBig sha.E ++ writeLongBig sha.F ++ writeLongBig sha.G ++ writeLongBig sha.H
  length_writeLength _ := rfl
  lengthPosn_lt := by decide

def sha512 : BlockHash where
  State := SHA2.State 64
  blockSize := 128
  lengthPosn := 128 - 16
  initial := ⟨0x6a09e667f3bcc908, 0xbb67ae8584caa73b, 0x3c6ef372fe94f82b, 0xa54ff53a5f1d36f1,
    0x510e527fade682d1, 0x9b05688c2b3e6c1f, 0x1f83d9abfb41bd6b, 0x5be0cd19137e2179⟩
  zero := ⟨0, 0, 0, 0, 0, 0, 0, 0⟩
  processBlock := SHA512.processBlock
  writeLength bits := List.replicate 8 0 ++ writeLongBig64 bits
  writeState sha :=
    writeLongBig64 sha.A ++ writeLongBig64 sha.B ++ writeLongBig64 sha.C ++
      writeLongBig64 sha.D ++ writeLongBig64 sha.E ++ writeLongBig64 sha.F ++
      writeLongBig64 sha.G ++ writeLongBig64 sha.H
  length_writeLength _ := rfl
  lengthPosn_lt := by decide

def ripemd160 : BlockHash where
  State := RIPEMD160.State
  blockSize := 64
  lengthPosn := 56
  initial := ⟨0x67452301, 0xEFCDAB89, 0x98BADCFE, 0x10325476, 0xC3D2E1F0⟩
  zero := ⟨0, 0, 0, 0, 0⟩
  processBlock := RIPEMD160.processBlock
  writeLength bits :=
    writeLongLittle (bits.setWidth 32) ++ writeLongLittle ((bits >>> 32).setWidth 32)
  writeState ripem :=
    writeLongLittle ripem.A ++ writeLongLittle ripem.B ++ writeLongLittle ripem.C ++
      writeLongLittle ripem.D ++ writeLongLittle ripem.E
  length_writeLength _ := rfl
  lengthPosn_lt := by decide

def ilMD5Init := md5.init
def ilMD5Data : HashContext md5 → List ILUInt8 → HashContext md5 := BlockHash.data
def ilMD5Finalize : HashContext md5 → Bool → Option (List ILUInt8) × HashContext md5 :=
  BlockHash.finalize

def ilSHAInit := sha.init
def ilSHAData : HashContext sha → List ILUInt8 → HashContext sha := BlockHash.data
def ilSHAFinalize : HashContext sha → Bool → Option (List ILUInt8) × HashContext sha :=
  BlockHash.finalize

def ilSHA256Init := sha256.init
def ilSHA256Data : HashContext sha256 → List ILUInt8 → HashContext sha256 := BlockHash.data
def ilSHA256Finalize : HashContext sha256 → Bool → Option (List ILUInt8) × HashContext sha256 :=
  BlockHash.finalize

def ilSHA512Init := sha512.init
def ilSHA512Data : HashContext sha512 → List ILUInt8 → HashContext sha512 := BlockHash.data
def ilSHA512Finalize : HashContext sha512 → Bool → Option (List ILUInt8) × HashContext sha512 :=
  BlockHash.finalize

def ilRIPEMD160Init := ripemd160.init
def ilRIPEMD160Data : HashContext ripemd160 → List ILUInt8 → HashContext ripemd160 :=
  BlockHash.data
def ilRIPEMD160Finalize :
    HashContext ripemd160 → Bool → Option (List ILUInt8) × HashContext ripemd160 :=
  BlockHash.finalize

end Pnet.Support

/-! ### Chunks of a message

A message hashed in chunks has the digest that the standards give it as a whole. -/
namespace Pnet.Support
open Pnet.Lib Pnet.Lib.BlockFold

/-! ### What the standards prescribe -/

inductive DigestAlgorithm where
  | md5
  | sha
  | sha256
  | sha512
  | ripemd160
deriving DecidableEq, Repr

/-- Blocks, and the field at their end for the length of the message in bits. -/
structure Padding where
  blockSize : Nat
  lengthSize : Nat
  littleEndian : Bool

namespace Padding

variable (p : Padding)

/-- The zeros after which the length ends a block. -/
def zeros (n : Nat) : Nat :=
  (p.blockSize + (p.blockSize - p.lengthSize) - 1 - n % p.blockSize) % p.blockSize

def lengthField (bits : Nat) : List ILUInt8 :=
  let bytes := (List.range p.lengthSize).map fun i => BitVec.ofNat 8 (bits / 256 ^ i)
  if p.littleEndian then bytes else bytes.reverse

def padded (message : List ILUInt8) : List ILUInt8 :=
  message ++ 0x80 :: (List.replicate (p.zeros message.length) 0 ++
    p.lengthField (8 * message.length))

variable {p}

end Padding

def DigestAlgorithm.hash : DigestAlgorithm → BlockHash
  | md5 => Support.md5
  | sha => Support.sha
  | sha256 => Support.sha256
  | sha512 => Support.sha512
  | ripemd160 => Support.ripemd160

def DigestAlgorithm.padding : DigestAlgorithm → Padding
  | md5 | ripemd160 => ⟨64, 8, true⟩
  | sha | sha256 => ⟨64, 8, false⟩
  | sha512 => ⟨128, 16, false⟩

/-- The digest of a whole message. -/
def standardDigest (a : DigestAlgorithm) (message : List ILUInt8) : List ILUInt8 :=
  a.hash.writeState
    (fold a.hash.processBlock a.padding.blockSize a.hash.initial (a.padding.padded message))

/-- `Init`, a call of `Data` for each chunk, and `Finalize`. -/
def chunkDigest (a : DigestAlgorithm) (memory : List ILUInt8)
    (hmemory : memory.length = a.hash.blockSize) (chunks : List (List ILUInt8)) :
    Option (List ILUInt8) :=
  (BlockHash.finalize (chunks.foldl BlockHash.data (a.hash.init memory hmemory)) true).1

/-! ### Taking in the chunks -/

section Chunks

variable {h : BlockHash} {context : HashContext h} {message : List ILUInt8}

theorem BlockHash.blockSize_pos (h : BlockHash) : 0 < h.blockSize :=
  (Nat.zero_le _).trans_lt h.lengthPosn_lt

/-- Of a message, the first bytes of the input buffer have not been processed yet. -/
structure Buffered (h : BlockHash) (message : List ILUInt8) (state : h.State)
    (input : List ILUInt8) (n : Nat) : Prop where
  length_input : input.length = h.blockSize
  absorbed : Absorbed h.processBlock h.blockSize h.initial message state (input.take n)

namespace Buffered

variable {state : h.State} {input : List ILUInt8} {n : Nat}

theorem write (hbuffered : Buffered h message state input n) (part : List ILUInt8)
    (hpart : n + part.length ≤ h.blockSize) :
    Buffered h (message ++ part) state (patch input n part) (n + part.length) where
  length_input := (length_patch (hpart.trans hbuffered.length_input.ge)).trans
    hbuffered.length_input
  absorbed := by
    have hn : n ≤ input.length := (Nat.le_add_right _ _).trans
      (hpart.trans hbuffered.length_input.ge)
    have htake : (input.take n).length = n := List.length_take_of_le hn
    have hwritten : (patch input n part).take (n + part.length) = input.take n ++ part := by
      rw [patch, ← List.append_assoc]
      apply List.take_left'
      rw [List.length_append, htake]
    rw [hwritten]
    exact hbuffered.absorbed.append part

theorem process (hbuffered : Buffered h message state input n) (hn : n = h.blockSize) :
    Buffered h message (h.processBlock state input) input 0 where
  length_input := hbuffered.length_input
  absorbed := by
    have hall := hbuffered.absorbed
    rw [hn, List.take_of_length_le hbuffered.length_input.le] at hall
    exact hall.block h.blockSize_pos hbuffered.length_input

end Buffered

/-- A context that has been given a message. -/
structure HashContext.Holds (context : HashContext h) (message : List ILUInt8) : Prop where
  buffered : Buffered h message context.state context.input context.inputLen
  totalLen : context.totalLen = BitVec.ofNat 64 message.length

/-- Bytes that are copied to the buffer are taken in. -/
theorem buffered_fill {part : List ILUInt8}
    (hbuffered : Buffered h message context.state context.input context.inputLen)
    (hpart : context.inputLen + part.length ≤ h.blockSize) :
    Buffered h (message ++ part) (context.fill part hpart).state (context.fill part hpart).input
      (context.fill part hpart).inputLen := by
  have hmore := hbuffered.write _ hpart
  unfold HashContext.fill
  split
  · exact hmore
  · exact hmore.process (by omega)

theorem buffered_direct {block : List ILUInt8}
    (hbuffered : Buffered h message context.state context.input context.inputLen)
    (hempty : context.inputLen = 0) (hblock : block.length = h.blockSize) :
    Buffered h (message ++ block) (context.direct block).state (context.direct block).input
      (context.direct block).inputLen where
  length_input := hbuffered.length_input
  absorbed := by
    have hall := hbuffered.absorbed
    change Absorbed _ _ _ _ _ (context.input.take context.inputLen)
    rw [hempty, List.take_zero] at hall ⊢
    exact (hall.append block).block h.blockSize_pos hblock

theorem buffered_dataLoop (context : HashContext h) (buffer message : List ILUInt8)
    (hbuffered : Buffered h message context.state context.input context.inputLen) :
    Buffered h (message ++ buffer) (context.dataLoop buffer).state
      (context.dataLoop buffer).input (context.dataLoop buffer).inputLen := by
  induction context, buffer using HashContext.dataLoop.induct generalizing message with
  | case1 context =>
    rw [HashContext.dataLoop, if_pos rfl, List.append_nil]
    exact hbuffered
  | case2 context buffer hne hdirect ih =>
    rw [HashContext.dataLoop, if_neg hne, if_pos hdirect]
    have hblock : (buffer.take h.blockSize).length = h.blockSize :=
      List.length_take_of_le hdirect.2
    have hmore := ih _ (buffered_direct hbuffered hdirect.1 hblock)
    rwa [List.append_assoc, List.take_append_drop] at hmore
  | case3 context buffer hne hdirect ih =>
    rw [HashContext.dataLoop, if_neg hne, if_neg hdirect]
    have hmore := ih _ (buffered_fill hbuffered (context.length_take_le buffer))
    rwa [List.append_assoc, List.take_append_drop] at hmore

theorem totalLen_dataLoop (context : HashContext h) (buffer : List ILUInt8) :
    (context.dataLoop buffer).totalLen = context.totalLen := by
  induction context, buffer using HashContext.dataLoop.induct with
  | case1 context => rw [HashContext.dataLoop, if_pos rfl]
  | case2 context buffer hne hdirect ih =>
    rw [HashContext.dataLoop, if_neg hne, if_pos hdirect, ih]
    rfl
  | case3 context buffer hne hdirect ih =>
    rw [HashContext.dataLoop, if_neg hne, if_neg hdirect, ih, HashContext.fill]
    split <;> rfl

theorem holds_init (memory : List ILUInt8) (hmemory : memory.length = h.blockSize) :
    (h.init memory hmemory).Holds [] where
  buffered := ⟨hmemory, Absorbed.nil h.initial⟩
  totalLen := rfl

theorem HashContext.Holds.data (hholds : context.Holds message) (buffer : List ILUInt8) :
    (BlockHash.data context buffer).Holds (message ++ buffer) where
  buffered := buffered_dataLoop _ buffer message hholds.buffered
  totalLen := by
    rw [BlockHash.data, totalLen_dataLoop, hholds.totalLen, List.length_append, BitVec.ofNat_add]

/-- What was given in chunks is held as one message. -/
theorem HashContext.Holds.chunks (hholds : context.Holds message) (chunks : List (List ILUInt8)) :
    (chunks.foldl BlockHash.data context).Holds (message ++ chunks.flatten) := by
  induction chunks generalizing context message with
  | nil => simpa using hholds
  | cons chunk chunks ih =>
    rw [List.foldl_cons, List.flatten_cons, ← List.append_assoc]
    exact ih (hholds.data chunk)

/-! ### The padding -/

/-- A hash pads as a standard prescribes. -/
structure Padding.Of (p : Padding) (h : BlockHash) : Prop where
  blockSize : p.blockSize = h.blockSize
  lengthPosn : h.lengthPosn + p.lengthSize = h.blockSize
  lengthSize_lt : p.lengthSize < p.blockSize
  writeLength : ∀ n < 2 ^ 61, h.writeLength (BitVec.ofNat 64 n <<< 3) = p.lengthField (8 * n)

/-- The rest of the padding, where the marker and the first zeros have been written. -/
theorem finish_padding {p : Padding} (hp : p.Of h) (hlt : message.length < 2 ^ 61)
    {state : h.State} {input : List ILUInt8} {n k : Nat} (hn : n ≤ h.lengthPosn)
    (hbuffered : Buffered h (message ++ [0x80] ++ List.replicate k 0) state input n)
    (hzeros : p.zeros message.length = k + (h.lengthPosn - n)) :
    h.processBlock state (patch (patch input n (List.replicate (h.lengthPosn - n) 0)) h.lengthPosn
        (h.writeLength (BitVec.ofNat 64 message.length <<< 3))) =
      fold h.processBlock h.blockSize h.initial (p.padded message) := by
  have hlength := h.length_writeLength (BitVec.ofNat 64 message.length <<< 3)
  have hzeroed := hbuffered.write (List.replicate (h.lengthPosn - n) 0) (by
    have hposn := h.lengthPosn_lt
    rw [List.length_replicate]
    omega)
  rw [List.length_replicate, Nat.add_sub_cancel' hn] at hzeroed
  have hlast := (hzeroed.write _ hlength.le).process hlength
  have hpadded : message ++ [(0x80 : ILUInt8)] ++ List.replicate k (0 : ILUInt8) ++
      List.replicate (h.lengthPosn - n) (0 : ILUInt8) ++
      h.writeLength (BitVec.ofNat 64 message.length <<< 3) = p.padded message := by
    rw [Padding.padded, hzeros, hp.writeLength _ hlt, List.replicate_add]
    simp only [List.append_assoc, List.cons_append, List.nil_append]
  rw [hpadded] at hlast
  exact hlast.absorbed.fold_eq.symm

theorem pad_eq {p : Padding} (hp : p.Of h) (hholds : context.Holds message)
    (hlt : message.length < 2 ^ 61) :
    context.pad = fold h.processBlock h.blockSize h.initial (p.padded message) := by
  have hroom := context.inputLen_lt
  have hposn := h.lengthPosn_lt
  have hmod : message.length % h.blockSize = context.inputLen := by
    have hbuffered : (context.input.take context.inputLen).length = context.inputLen :=
      List.length_take_of_le (hroom.le.trans context.length_input.ge)
    exact (hholds.buffered.absorbed.length_mod (hbuffered.trans_lt hroom)).trans hbuffered
  have hzeros : p.zeros message.length =
      (h.blockSize + h.lengthPosn - 1 - context.inputLen) % h.blockSize := by
    have hlength := hp.lengthPosn
    rw [Padding.zeros, hp.blockSize, hmod, ← hlength, Nat.add_sub_cancel]
  have hmarked := hholds.buffered.write [0x80] hroom
  rw [HashContext.pad, hholds.totalLen]
  by_cases htwo : h.lengthPosn ≤ context.inputLen
  · -- zeros up to the end of the block, and another block
    have hfull : context.inputLen + 1 + (h.blockSize - (context.inputLen + 1)) = h.blockSize :=
      Nat.add_sub_cancel' hroom
    have hfirst := (hmarked.write (List.replicate (h.blockSize - (context.inputLen + 1)) 0)
      (by simpa using hfull.le)).process (by simpa using hfull)
    rw [HashContext.beginPadding, if_pos htwo]
    apply finish_padding hp hlt (Nat.zero_le _) hfirst
    rw [hzeros, Nat.mod_eq_of_lt (by omega)]
    omega
  · rw [HashContext.beginPadding, if_neg htwo]
    apply finish_padding (k := 0) hp hlt (by omega)
    · rw [List.replicate_zero, List.append_nil]
      exact hmarked
    · have hsplit : h.blockSize + h.lengthPosn - 1 - context.inputLen =
          h.lengthPosn - (context.inputLen + 1) + h.blockSize := by omega
      rw [hzeros, hsplit, Nat.add_mod_right, Nat.mod_eq_of_lt (by omega), Nat.zero_add]

end Chunks

/-! ### The five hashes -/

/-- The bytes of a number, the lowest one first. -/
def byteList (count n : Nat) : List ILUInt8 :=
  (List.range count).map fun i => BitVec.ofNat 8 (n / 256 ^ i)

theorem writeLongLittle_pair (bits : ILUInt64) :
    writeLongLittle (bits.setWidth 32) ++ writeLongLittle ((bits >>> 32).setWidth 32) =
      byteList 8 bits.toNat := by
  simp only [writeLongLittle, byteList, List.range_succ, List.range_zero, List.map_cons,
    List.map_nil, List.nil_append, List.cons_append, List.cons.injEq, and_true]
  refine ⟨?_, ?_, ?_, ?_, ?_, ?_, ?_, ?_⟩
  all_goals
    apply BitVec.eq_of_toNat_eq
    simp only [BitVec.toNat_setWidth, BitVec.toNat_ushiftRight, BitVec.toNat_ofNat,
      Nat.shiftRight_eq_div_pow]
    omega

theorem writeLongBig_pair (bits : ILUInt64) :
    writeLongBig ((bits >>> 32).setWidth 32) ++ writeLongBig (bits.setWidth 32) =
      (byteList 8 bits.toNat).reverse := by
  rw [← writeLongLittle_pair, List.reverse_append]
  rfl

theorem writeLongBig64_eq (bits : ILUInt64) :
    writeLongBig64 bits = (byteList 8 bits.toNat).reverse := by
  rw [← writeLongLittle_pair]
  simp only [writeLongBig64, writeLongLittle, List.reverse_cons, List.reverse_nil,
    List.nil_append, List.cons_append, List.cons.injEq, and_true]
  refine ⟨?_, ?_, ?_, ?_, ?_, ?_, ?_, ?_⟩
  all_goals
    apply BitVec.eq_of_toNat_eq
    simp only [BitVec.toNat_setWidth, BitVec.toNat_ushiftRight, Nat.shiftRight_eq_div_pow]
    omega

/-- The upper bytes of a small number are zero. -/
theorem byteList_add {n : Nat} (hn : n < 256 ^ 8) (more : Nat) :
    byteList (8 + more) n = byteList 8 n ++ List.replicate more 0 := by
  rw [byteList, List.range_add, List.map_append, List.map_map, byteList]
  congr 1
  rw [List.eq_replicate_iff]
  refine ⟨by simp, fun byte hbyte => ?_⟩
  obtain ⟨i, -, rfl⟩ := List.mem_map.1 hbyte
  have hle : (256 : Nat) ^ 8 ≤ 256 ^ (8 + i) := Nat.pow_le_pow_right (by decide) (by omega)
  rw [Function.comp_apply, Nat.div_eq_of_lt (hn.trans_le hle)]
  rfl

theorem shiftLeft_toNat {n : Nat} (hn : n < 2 ^ 61) :
    (BitVec.ofNat 64 n <<< 3).toNat = 8 * n := by
  rw [BitVec.toNat_shiftLeft, BitVec.toNat_ofNat, Nat.shiftLeft_eq]
  omega

theorem padding_of (a : DigestAlgorithm) : a.padding.Of a.hash := by
  cases a with
  | md5 | ripemd160 =>
    refine ⟨rfl, rfl, by decide, fun n hn => ?_⟩
    exact (writeLongLittle_pair _).trans (congrArg (byteList 8) (shiftLeft_toNat hn))
  | sha | sha256 =>
    refine ⟨rfl, rfl, by decide, fun n hn => ?_⟩
    have hbits := congrArg (byteList 8) (shiftLeft_toNat hn)
    exact (writeLongBig_pair _).trans (congrArg List.reverse hbits)
  | sha512 =>
    refine ⟨rfl, rfl, by decide, fun n hn => ?_⟩
    have hbits := congrArg (byteList 8) (shiftLeft_toNat hn)
    have hlong := congrArg List.reverse (byteList_add (n := 8 * n) (by omega) 8)
    rw [List.reverse_append, List.reverse_replicate, ← hbits, ← writeLongBig64_eq] at hlong
    exact hlong.symm

/-- A message of less than 2 ^ 61 bytes has its digest, in whatever chunks it is given, and
whatever the context held before. -/
theorem chunkDigest_eq (a : DigestAlgorithm) (memory : List ILUInt8)
    (hmemory : memory.length = a.hash.blockSize) (chunks : List (List ILUInt8))
    (hlt : chunks.flatten.length < 2 ^ 61) :
    chunkDigest a memory hmemory chunks = some (standardDigest a chunks.flatten) := by
  have hholds := (holds_init memory hmemory).chunks chunks
  rw [List.nil_append] at hholds
  have hpad := pad_eq (padding_of a) hholds hlt
  rw [chunkDigest, BlockHash.finalize, if_pos rfl, hpad, standardDigest, (padding_of a).blockSize]

theorem chunkDigest_abc :
    chunkDigest .sha (List.replicate 64 0x55) rfl [[0x61], [], [0x62, 0x63]] =
      some (standardDigest .sha [0x61, 0x62, 0x63]) :=
  chunkDigest_eq .sha (List.replicate 64 0x55) rfl [[0x61], [], [0x62, 0x63]] (by decide)

/-- A test vector of `ripemd160.c`. -/
example : standardDigest .ripemd160 [0x61, 0x62, 0x63] =
    [0x8e, 0xb2, 0x08, 0xf7, 0xe0, 0x5d, 0x98, 0x7a, 0x9b, 0x04, 0x4a, 0x8e, 0x98, 0xc6, 0xb0,
      0x87, 0xf1, 0x5a, 0x0b, 0xfc] := by
  decide +kernel

end Pnet.Support
