import Pnet.Lib.ByteWindow
import Pnet.Support.Des
import Pnet.Support.Rc2

/-! The block ciphers of `il_crypt.h` on buffers in memory: what has been encrypted is decrypted
with the same key. -/
namespace Pnet.Support
open Pnet.Lib

/-! ### Buffers -/

/-- The bytes of a buffer. -/
def buffer (size : Nat) (memory : List ILUInt8) (posn : Nat) : List ILUInt8 :=
  (memory.drop posn).take size

/-- The block is read whole before the result is written. -/
def onBuffers (size : Nat) (process : List ILUInt8 → List ILUInt8) (memory : List ILUInt8)
    (input output : Nat) : List ILUInt8 :=
  patch memory output (process (buffer size memory input))

def DES.ilDES3Process (des3 : ILDES3Context) (memory : List ILUInt8) (input output : Nat) :
    List ILUInt8 :=
  let memory := onBuffers 8 (processDESBlock des3.k1.ks) memory input output
  let memory := onBuffers 8 (processDESBlock des3.k2.ks) memory output output
  onBuffers 8 (processDESBlock des3.k3.ks) memory output output

theorem length_buffer {size posn : Nat} {memory : List ILUInt8} (h : posn + size ≤ memory.length) :
    (buffer size memory posn).length = size := by
  rw [buffer, List.length_take, List.length_drop]
  omega

theorem buffer_patch {posn : Nat} {memory part : List ILUInt8}
    (h : posn + part.length ≤ memory.length) :
    buffer part.length (patch memory posn part) posn = part := by
  have htake : (memory.take posn).length = posn := List.length_take_of_le (by omega)
  rw [buffer, patch, List.drop_left' htake, List.take_left' rfl]

section OnBuffers

variable {size input output : Nat} {memory : List ILUInt8}
variable {process : List ILUInt8 → List ILUInt8}

theorem length_onBuffers (hlength : ∀ block, (process block).length = size)
    (h : output + size ≤ memory.length) :
    (onBuffers size process memory input output).length = memory.length :=
  length_patch (by rwa [hlength])

theorem buffer_onBuffers (hlength : ∀ block, (process block).length = size)
    (h : output + size ≤ memory.length) :
    buffer size (onBuffers size process memory input output) output =
      process (buffer size memory input) := by
  have hread := @buffer_patch output memory (process (buffer size memory input))
  rw [hlength] at hread
  exact hread h

end OnBuffers

/-! ### The ciphers -/

inductive BlockCipher where
  | aes
  | rc2
  | des
  | des3
deriving DecidableEq, Repr

namespace BlockCipher

def blockSize : BlockCipher → Nat
  | aes => 16
  | rc2 | des | des3 => 8

/-- Encryption of a block with the set-up for it. -/
def encrypt (cipher : BlockCipher) (key : List ILUInt8) (keyBits : Nat) :
    List ILUInt8 → Nat → Nat → List ILUInt8 :=
  match cipher with
  | aes => onBuffers 16 (AES.ilAESEncrypt (AES.ilAESInit key keyBits))
  | rc2 => onBuffers 8 (RC2.ilRC2Encrypt (RC2.ilRC2Init key keyBits))
  | des => onBuffers 8 (DES.ilDESProcess (DES.ilDESInit key false))
  | des3 => DES.ilDES3Process (DES.ilDES3Init key keyBits false)

/-- Decryption of a block with the set-up for it. -/
def decrypt (cipher : BlockCipher) (key : List ILUInt8) (keyBits : Nat) :
    List ILUInt8 → Nat → Nat → List ILUInt8 :=
  match cipher with
  | aes => onBuffers 16 (AES.ilAESDecrypt (AES.ilAESInit key keyBits))
  | rc2 => onBuffers 8 (RC2.ilRC2Decrypt (RC2.ilRC2Init key keyBits))
  | des => onBuffers 8 (DES.ilDESProcess (DES.ilDESInit key true))
  | des3 => DES.ilDES3Process (DES.ilDES3Init key keyBits true)

end BlockCipher

/-! ### Triple DES -/

namespace DES

/-- The three passes on a block. -/
def tripleBlock (des3 : ILDES3Context) (block : List ILUInt8) : List ILUInt8 :=
  processDESBlock des3.k3.ks (processDESBlock des3.k2.ks (processDESBlock des3.k1.ks block))

variable {memory : List ILUInt8} {input output : Nat}

theorem length_ilDES3Process (des3 : ILDES3Context) (h : output + 8 ≤ memory.length) :
    (ilDES3Process des3 memory input output).length = memory.length := by
  have hpass := fun ks => length_processDESBlock ks
  have hfirst := @length_onBuffers _ input _ _ _ (hpass des3.k1.ks) h
  have hsecond := @length_onBuffers _ output _ _ _ (hpass des3.k2.ks) (hfirst.symm ▸ h)
  rw [ilDES3Process, length_onBuffers (hpass des3.k3.ks) (by rwa [hsecond, hfirst]), hsecond,
    hfirst]

theorem buffer_ilDES3Process (des3 : ILDES3Context) (h : output + 8 ≤ memory.length) :
    buffer 8 (ilDES3Process des3 memory input output) output =
      tripleBlock des3 (buffer 8 memory input) := by
  have hpass := fun ks => length_processDESBlock ks
  have hfirst := @length_onBuffers _ input _ _ _ (hpass des3.k1.ks) h
  have hsecond := @length_onBuffers _ output _ _ _ (hpass des3.k2.ks) (hfirst.symm ▸ h)
  rw [ilDES3Process, buffer_onBuffers (hpass des3.k3.ks) (by rwa [hsecond, hfirst]),
    buffer_onBuffers (hpass des3.k2.ks) (by rwa [hfirst]), buffer_onBuffers (hpass des3.k1.ks) h,
    tripleBlock]

/-- The passes are taken back in reverse order. -/
theorem tripleBlock_tripleBlock (key₁ key₂ key₃ : List ILUInt8) {block : List ILUInt8}
    (hblock : block.length = 8) :
    tripleBlock ⟨createDESSchedule key₃ true, createDESSchedule key₂ false,
        createDESSchedule key₁ true⟩
      (tripleBlock ⟨createDESSchedule key₁ false, createDESSchedule key₂ true,
        createDESSchedule key₃ false⟩ block) = block := by
  have hfirst := process_process key₁ false hblock
  have hsecond := process_process key₂ true
    (length_processDESBlock (createDESSchedule key₁ false).ks block)
  have hthird := process_process key₃ false
    (length_processDESBlock (createDESSchedule key₂ true).ks
      (processDESBlock (createDESSchedule key₁ false).ks block))
  rw [Bool.not_false] at hthird hfirst
  rw [Bool.not_true] at hsecond
  simp only [tripleBlock]
  rw [hthird, hsecond, hfirst]

/-- The set-ups with two keys and with three are the reverse of each other. -/
theorem tripleBlock_ilDES3Init (key : List ILUInt8) (keyBits : Nat) {block : List ILUInt8}
    (hblock : block.length = 8) :
    tripleBlock (ilDES3Init key keyBits true) (tripleBlock (ilDES3Init key keyBits false) block) =
      block := by
  by_cases hkey : keyBits = 192
  · rw [ilDES3Init, ilDES3Init, if_pos hkey, if_pos hkey]
    exact tripleBlock_tripleBlock key (key.drop 8) (key.drop 16) hblock
  · rw [ilDES3Init, ilDES3Init, if_neg hkey, if_neg hkey]
    exact tripleBlock_tripleBlock key (key.drop 8) key hblock

end DES

/-! ### Decryption after encryption -/

section Process

variable {size input output result : Nat} {memory : List ILUInt8}
variable {encrypt decrypt : List ILUInt8 → List ILUInt8}

/-- Blocks that are taken back are taken back in memory, whatever buffers overlap. -/
theorem onBuffers_onBuffers (hencrypt : ∀ block, (encrypt block).length = size)
    (hdecrypt : ∀ block, (decrypt block).length = size)
    (hback : ∀ block, block.length = size → decrypt (encrypt block) = block)
    (hinput : input + size ≤ memory.length) (houtput : output + size ≤ memory.length)
    (hresult : result + size ≤ memory.length) :
    buffer size (onBuffers size decrypt (onBuffers size encrypt memory input output) output result)
      result = buffer size memory input := by
  rw [buffer_onBuffers hdecrypt (by rwa [length_onBuffers hencrypt houtput]),
    buffer_onBuffers hencrypt houtput]
  exact hback _ (length_buffer hinput)

end Process

theorem AES.length_ilAESEncrypt (aes : ILAESContext) (block : List ILUInt8) :
    (ilAESEncrypt aes block).length = 16 := rfl

theorem AES.length_ilAESDecrypt (aes : ILAESContext) (block : List ILUInt8) :
    (ilAESDecrypt aes block).length = 16 := rfl

theorem RC2.length_ilRC2Encrypt (rc2 : ILRC2Context) (block : List ILUInt8) :
    (ilRC2Encrypt rc2 block).length = 8 := rfl

theorem RC2.length_ilRC2Decrypt (rc2 : ILRC2Context) (block : List ILUInt8) :
    (ilRC2Decrypt rc2 block).length = 8 := rfl

variable {input output result : Nat} {memory : List ILUInt8}

/-- The block comes back for every key, wherever the buffers lie. -/
theorem decrypt_encrypt_buffer (cipher : BlockCipher) (key : List ILUInt8) (keyBits : Nat)
    (hinput : input + cipher.blockSize ≤ memory.length)
    (houtput : output + cipher.blockSize ≤ memory.length)
    (hresult : result + cipher.blockSize ≤ memory.length) :
    buffer cipher.blockSize
        (cipher.decrypt key keyBits (cipher.encrypt key keyBits memory input output) output result)
        result =
      buffer cipher.blockSize memory input := by
  cases cipher with
  | aes =>
    have hrounds := AES.numRounds_pos key keyBits
    exact onBuffers_onBuffers (AES.length_ilAESEncrypt _) (AES.length_ilAESDecrypt _)
      (fun _ hblock => AES.decrypt_encrypt _ hrounds hblock) hinput houtput hresult
  | rc2 =>
    exact onBuffers_onBuffers (RC2.length_ilRC2Encrypt _) (RC2.length_ilRC2Decrypt _)
      (fun _ hblock => RC2.decrypt_encrypt _ hblock) hinput houtput hresult
  | des =>
    exact onBuffers_onBuffers (DES.length_processDESBlock _) (DES.length_processDESBlock _)
      (fun _ hblock => DES.process_process key false hblock) hinput houtput hresult
  | des3 =>
    have hlength := @DES.length_ilDES3Process memory input output (DES.ilDES3Init key keyBits false)
      houtput
    simp only [BlockCipher.encrypt, BlockCipher.decrypt, BlockCipher.blockSize] at *
    rw [DES.buffer_ilDES3Process _ (by rwa [hlength]), DES.buffer_ilDES3Process _ houtput]
    exact DES.tripleBlock_ilDES3Init key keyBits (length_buffer hinput)

/-- Two keys and a block that is replaced in place. -/
theorem decrypt_encrypt_buffer_in_place :
    buffer 8
        (BlockCipher.des3.decrypt (List.range 16 |>.map (BitVec.ofNat 8)) 128
          (BlockCipher.des3.encrypt (List.range 16 |>.map (BitVec.ofNat 8)) 128
            [1, 2, 3, 4, 5, 6, 7, 8, 9] 1 1) 1 1) 1 =
      buffer 8 [1, 2, 3, 4, 5, 6, 7, 8, 9] 1 :=
  decrypt_encrypt_buffer .des3 (List.range 16 |>.map (BitVec.ofNat 8)) 128 (by decide) (by decide)
    (by decide)

end Pnet.Support
