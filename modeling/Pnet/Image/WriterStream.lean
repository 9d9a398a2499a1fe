import Pnet.CTypes
import Pnet.Lib.Chunks
import Pnet.Lib.Stdio

/-! How `image/pecoff_writer.c` writes an image to its stream, or to a chain of buffers while there
is none that it can seek in. A result of `none` is an access through a null pointer. -/
namespace Pnet.Image.WriterStream
open Lib

/-- `IL_WRITE_BUFFER_SIZE` -/
def writeBufferSize : Nat := 2048

/-- `currSeek` is `none` when it is all ones, and `backpatchBuf` has the bytes that have been
read into it. -/
structure ILWriter (F : Type) where
  offset : Nat := 0
  currSeek : Option Nat := some 0
  stream : Option F
  seekable : Bool
  streamBuffer : Chunks := {}
  outOfMemory : Bool := false
  writeFailed : Bool := false
  backpatching : Bool := false
  backpatchSeek : Nat := 0
  backpatchLen : Nat := 0
  backpatchBuf : Option (List ILUInt8)

namespace ILWriter

variable {F : Type}

/-- `memory` is whether there is enough for the back-patch cache. -/
def ilWriterCreate (stream : Option F) (seekable memory : Bool) : ILWriter F where
  stream
  seekable := stream.isSome && seekable
  backpatchBuf := if seekable && memory then some [] else none

/-- An error has been recorded. -/
def error (w : ILWriter F) : Bool := w.outOfMemory || w.writeFailed

variable (io : Stdio F) (w : ILWriter F)

/-! ### The stream -/

def seekTo (posn : Nat) : Option (Bool × ILWriter F) :=
  w.stream.map fun f =>
    let (ok, f) := io.fseek f posn
    (ok, { w with stream := some f, writeFailed := w.writeFailed || !ok })

def writeOut (bytes : List ILUInt8) : Option (Bool × ILWriter F) :=
  w.stream.map fun f =>
    let (count, f) := io.fwrite f bytes
    let ok : Bool := count = bytes.length
    (ok, { w with stream := some f, writeFailed := w.writeFailed || !ok })

def readIn (size : Nat) : Option (List ILUInt8 × ILWriter F) :=
  w.stream.map fun f =>
    let (bytes, f) := io.fread f size
    (bytes, { w with stream := some f })

def flushBackPatchCache : Option (ILWriter F) :=
  if w.backpatching then
    match seekTo io w w.backpatchSeek with
    | some (true, w) => do
      let buf ← w.backpatchBuf
      let (ok, w) ← writeOut io w (buf.take w.backpatchLen)
      if ok then
        some { w with
          currSeek := some (w.backpatchSeek + w.backpatchLen)
          backpatching := false }
      else some w
    | some (false, w) => some w
    | none => none
  else some w

/-- The bytes go to `posn`, with a seek when the stream is not there. -/
def writeAt (posn : Nat) (bytes : List ILUInt8) : Option (Bool × ILWriter F) :=
  match if some posn ≠ w.currSeek then seekTo io w posn else some (true, w) with
  | some (true, w) => do
    let (ok, w) ← writeOut io w bytes
    if ok then some (true, { w with currSeek := some (posn + bytes.length) }) else some (false, w)
  | some (false, w) => some (false, w)
  | none => none

/-- `memory` is whether there is enough for the buffers. -/
def writeToImage (bytes : List ILUInt8) (memory : Bool) : Option (ILWriter F) :=
  if w.error then some w
  else if w.seekable then do
    let w ← flushBackPatchCache io w
    let (ok, w) ← writeAt io w w.offset bytes
    if ok then some { w with offset := w.offset + bytes.length } else some w
  else if memory then
    some { w with
      streamBuffer := w.streamBuffer.add writeBufferSize bytes
      offset := w.offset + bytes.length
      currSeek := some (w.offset + bytes.length) }
  else some { w with outOfMemory := true }

def writePieces (w : ILWriter F) : List (List ILUInt8) → Option (ILWriter F)
  | [] => some w
  | piece :: rest => do
    let (ok, w) ← writeOut io w piece
    if ok then writePieces w rest else some w

def writeFlush : Option (ILWriter F) :=
  if w.error then some w
  else if w.seekable then flushBackPatchCache io w
  else writePieces io w (w.streamBuffer.pieces writeBufferSize)

def writeBlockPadding (size : Nat) (memory : Bool) : Option (ILWriter F) :=
  if w.offset &&& (size - 1) ≠ 0 then
    writeToImage io w (List.replicate (size - (w.offset &&& (size - 1))) 0) memory
  else some w

/-! ### Back-patches -/

/-- Seek back in the file and write the change. -/
def fallback (posn : Nat) (bytes : List ILUInt8) : Option (ILWriter F) := do
  let (_, w) ← writeAt io w posn bytes
  some w

/-- Reads the block to be patched into memory, from a multiple of 512 bytes on. -/
def patchInCache (posn : Nat) (bytes : List ILUInt8) : Option (ILWriter F) :=
  let seek := posn / 512 * 512
  let len := min (w.offset - seek) writeBufferSize
  match seekTo io { w with backpatchSeek := seek, backpatchLen := len } seek with
  | some (true, w) => do
    let (block, w) ← readIn io w len
    if block.length = len then
      some { w with
        currSeek := some (seek + len)
        backpatchBuf := some (patch block (posn - seek) bytes)
        backpatching := true }
    else fallback io { w with currSeek := none, backpatchBuf := none } posn bytes
  | some (false, w) => some w
  | none => none

def writeBackPatchBytes (posn : Nat) (bytes : List ILUInt8) : Option (ILWriter F) :=
  if w.error then some w
  else if w.seekable then
    if w.backpatching ∧ w.backpatchSeek ≤ posn ∧
        posn + bytes.length ≤ w.backpatchSeek + w.backpatchLen then do
      let buf ← w.backpatchBuf
      some { w with backpatchBuf := some (patch buf (posn - w.backpatchSeek) bytes) }
    else do
      let w ← flushBackPatchCache io w
      if bytes.length ≤ 4 ∧ w.backpatchBuf.isSome then patchInCache io w posn bytes
      else fallback io w posn bytes
  else do
    let buffers ← Chunks.overwrite writeBufferSize w.streamBuffer.buffers posn bytes
    some { w with streamBuffer := ⟨buffers, w.streamBuffer.used⟩ }

def ilWriterSetStream (stream : F) (seekable : Bool) : Option (ILWriter F) :=
  match w.stream with
  | some _ => some w
  | none =>
    let w := { w with stream := some stream }
    if seekable then do
      let w ← writeFlush io w
      some { w with seekable }
    else some { w with seekable }

end ILWriter

/-! ### Runs -/

/-- What is done with a writer; `memory` is whether there is enough of it. -/
inductive Op (F : Type) where
  | append (bytes : List ILUInt8) (memory : Bool)
  | pad (size : Nat) (memory : Bool)
  | backPatch (posn : Nat) (bytes : List ILUInt8)
  | setStream (stream : F) (seekable : Bool)

namespace Op

variable {F : Type}

def run (io : Stdio F) (w : ILWriter F) : Op F → Option (ILWriter F)
  | append bytes memory => w.writeToImage io bytes memory
  | pad size memory => w.writeBlockPadding io size memory
  | backPatch posn bytes => w.writeBackPatchBytes io posn bytes
  | setStream stream seekable => w.ilWriterSetStream io stream seekable

/-- Then the rest of the image is flushed to the stream. -/
def runAll (io : Stdio F) (w : ILWriter F) : List (Op F) → Option (ILWriter F)
  | [] => w.writeFlush io
  | op :: ops => do
    let w ← op.run io w
    runAll io w ops

/-- The same on one array of bytes. -/
def apply (bytes : List ILUInt8) : Op F → List ILUInt8
  | append more _ => bytes ++ more
  | pad size _ =>
    if bytes.length &&& (size - 1) ≠ 0 then
      bytes ++ List.replicate (size - (bytes.length &&& (size - 1))) 0
    else bytes
  | backPatch posn part => patch bytes posn part
  | setStream _ _ => bytes

/-- A back-patch is made inside the area already written, and a stream is set that has just been
made. -/
def Allowed (io : Stdio F) (bytes : List ILUInt8) : Op F → Prop
  | backPatch posn part => posn + part.length ≤ bytes.length
  | setStream stream _ => io.Fresh stream
  | _ => True

def AllAllowed (io : Stdio F) (bytes : List ILUInt8) : List (Op F) → Prop
  | [] => True
  | op :: ops => op.Allowed io bytes ∧ AllAllowed io (op.apply bytes) ops

/-- A stream is set. -/
def sets : Op F → Bool
  | setStream _ _ => true
  | _ => false

end Op

end Pnet.Image.WriterStream

/-! ### What is written

The bytes in the stream of a writer are those of one array. The invariant says where the
array is while the writer goes on: in the stream, in the stream but for a window of it, or in the
buffers. -/
namespace Pnet.Image.WriterStream
open Lib

variable {F : Type} {io : Stdio F} {w : ILWriter F} {f : F} {bytes part : List ILUInt8} {posn : Nat}
  {attached : Bool}

/-! ### The invariant -/

/-- The stream is where the writer believes it to be. -/
structure Placed (io : Stdio F) (currSeek : Option Nat) (f : F) : Prop where
  le_length : ∀ posn, currSeek = some posn → posn ≤ (io.bytes f).length
  posn_eq : ∀ posn, currSeek = some posn → io.posn f = posn
  mode_ne : currSeek ≠ none → io.mode f ≠ .reading

/-- The stream has the bytes but for a window, which is in the cache. -/
structure Cached (io : Stdio F) (w : ILWriter F) (f : F) (bytes : List ILUInt8) : Prop where
  buf : ∃ buf, w.backpatchBuf = some buf ∧ buf.length = w.backpatchLen ∧
    patch (io.bytes f) w.backpatchSeek buf = bytes
  inside : w.backpatchSeek + w.backpatchLen ≤ bytes.length
  length_eq : (io.bytes f).length = bytes.length

/-- The bytes are in the buffers, and none are in the stream. -/
structure Buffered (io : Stdio F) (w : ILWriter F) (bytes : List ILUInt8) : Prop where
  wellFormed : w.streamBuffer.WellFormed writeBufferSize
  contents_eq : w.streamBuffer.contents = bytes
  fresh : ∀ f, w.stream = some f → io.Fresh f
  currSeek_eq : w.currSeek = some bytes.length
  direct : w.backpatching = false

/-- The bytes are in the stream. -/
structure Written (io : Stdio F) (w : ILWriter F) (f : F) (bytes : List ILUInt8) : Prop where
  bytes_eq : io.bytes f = bytes
  placed : Placed io w.currSeek f

inductive Inv (io : Stdio F) (w : ILWriter F) (bytes : List ILUInt8) : Prop where
  | buffered (hseekable : w.seekable = false) (h : Buffered io w bytes)
  | written (hseekable : w.seekable = true) (f : F) (hstream : w.stream = some f)
      (hdirect : w.backpatching = false) (h : Written io w f bytes)
  | cached (hseekable : w.seekable = true) (f : F) (hstream : w.stream = some f)
      (hcache : w.backpatching = true) (h : Cached io w f bytes)

/-- What holds of a writer, to which a stream has been attached or not, unless it has recorded an
error. -/
structure Sound (io : Stdio F) (attached : Bool) (w : ILWriter F) (bytes : List ILUInt8) :
    Prop where
  live : w.seekable = true ∨ attached = true → w.stream.isSome = true
  inv : w.error = false → w.offset = bytes.length ∧ Inv io w bytes

/-! ### The stream -/

section Stream

variable (hstream : w.stream = some f)
include hstream

theorem seekTo_spec (io : Stdio F) (posn : Nat) :
    ∃ ok f', w.seekTo io posn =
        some (ok, { w with stream := some f', writeFailed := w.writeFailed || !ok }) ∧
      (ok = true → posn ≤ (io.bytes f).length →
        io.bytes f' = io.bytes f ∧ io.posn f' = posn ∧ io.mode f' = .ready) := by
  refine ⟨(io.fseek f posn).1, (io.fseek f posn).2, ?_, fun hok hle => ?_⟩
  · rw [ILWriter.seekTo, hstream]
    rfl
  · exact io.fseek_spec hle (Prod.ext hok rfl)

theorem writeOut_spec (io : Stdio F) (part : List ILUInt8) :
    ∃ ok f', w.writeOut io part =
        some (ok, { w with stream := some f', writeFailed := w.writeFailed || !ok }) ∧
      (ok = true → io.mode f ≠ .reading → io.posn f ≤ (io.bytes f).length →
        io.bytes f' = patch (io.bytes f) (io.posn f) part ∧
          io.posn f' = io.posn f + part.length ∧ io.mode f' = .writing) := by
  refine ⟨decide ((io.fwrite f part).1 = part.length), (io.fwrite f part).2, ?_,
    fun hok hmode hle => ?_⟩
  · rw [ILWriter.writeOut, hstream]
    rfl
  · exact io.fwrite_spec hmode hle (Prod.ext (of_decide_eq_true hok) rfl)

theorem readIn_spec (io : Stdio F) (size : Nat) :
    ∃ block f', w.readIn io size = some (block, { w with stream := some f' }) ∧
      (io.mode f ≠ .writing → io.bytes f' = io.bytes f ∧
        (block.length = size → block = ((io.bytes f).drop (io.posn f)).take size)) := by
  refine ⟨(io.fread f size).1, (io.fread f size).2, ?_, fun hmode => io.fread_spec hmode rfl⟩
  rw [ILWriter.readIn, hstream]
  rfl

/-- What `writeAt` does, whether it fails or not. -/
theorem writeAt_spec (io : Stdio F) (posn : Nat) (part : List ILUInt8) :
    ∃ ok f' currSeek, w.writeAt io posn part =
        some (ok, { w with stream := some f', writeFailed := w.writeFailed || !ok, currSeek }) ∧
      (ok = true → Placed io w.currSeek f → posn ≤ (io.bytes f).length →
        io.bytes f' = patch (io.bytes f) posn part ∧ currSeek = some (posn + part.length) ∧
          Placed io currSeek f') := by
  have hwrite : ∀ {w : ILWriter F} {f : F}, w.stream = some f → ∃ ok f' currSeek,
      (do
        let (ok, w) ← w.writeOut io part
        if ok then some (true, { w with currSeek := some (posn + part.length) })
        else some (false, w)) =
          some (ok, { w with stream := some f', writeFailed := w.writeFailed || !ok, currSeek }) ∧
      (ok = true → io.mode f ≠ .reading → io.posn f = posn → posn ≤ (io.bytes f).length →
        io.bytes f' = patch (io.bytes f) posn part ∧ currSeek = some (posn + part.length) ∧
          Placed io currSeek f') := by
    intro w f hstream
    obtain ⟨ok, f', hout, hspec⟩ := writeOut_spec hstream io part
    simp only [hout, Option.bind_eq_bind, Option.bind_some]
    cases ok with
    | false => exact ⟨false, f', w.currSeek, rfl, nofun⟩
    | true =>
      refine ⟨true, f', some (posn + part.length), rfl, fun _ hmode hposn hle => ?_⟩
      obtain ⟨hbytes, hposn', hmode'⟩ := hspec rfl hmode (hposn ▸ hle)
      rw [hposn] at hbytes hposn'
      refine ⟨hbytes, rfl, fun posn' heq => ?_, fun posn' heq => ?_, fun _ => ?_⟩
      · cases heq
        rw [hbytes]
        exact le_length_patch hle part
      · cases heq
        exact hposn'
      · rw [hmode']
        nofun
  unfold ILWriter.writeAt
  by_cases hseek : some posn = w.currSeek
  · rw [if_neg (not_not.2 hseek)]
    obtain ⟨ok, f', currSeek, heq, hspec⟩ := hwrite hstream
    refine ⟨ok, f', currSeek, heq, fun hok hplaced hle => ?_⟩
    exact hspec hok (hplaced.mode_ne (hseek ▸ Option.some_ne_none posn))
      (hplaced.posn_eq posn hseek.symm) hle
  · rw [if_pos hseek]
    obtain ⟨ok, f', heq, hspec⟩ := seekTo_spec hstream io posn
    rw [heq]
    cases ok with
    | false => exact ⟨false, f', w.currSeek, rfl, nofun⟩
    | true =>
      obtain ⟨ok, f'', currSeek, heq', hspec'⟩ :=
        hwrite (w := { w with stream := some f', writeFailed := w.writeFailed || !true }) rfl
      refine ⟨ok, f'', currSeek, heq'.trans ?_, fun hok _ hle => ?_⟩
      · simp only [Bool.not_true, Bool.or_false]
      · obtain ⟨hbytes, hposn, hmode⟩ := hspec rfl hle
        rw [← hbytes] at hle ⊢
        exact hspec' hok (by rw [hmode]; nofun) hposn hle

end Stream

/-! ### Operations -/

theorem error_eq_false : w.error = false ↔ w.outOfMemory = false ∧ w.writeFailed = false :=
  Bool.or_eq_false_iff

/-- With an error nothing more is promised. -/
theorem Sound.of_error
    (hlive : w.seekable = true ∨ attached = true → w.stream.isSome = true)
    (herror : w.error = true) : Sound io attached w bytes :=
  ⟨hlive, fun hnot => absurd (hnot.symm.trans herror) Bool.false_ne_true⟩

/-- The bytes are in the stream, in a writer that can seek in it. -/
theorem Sound.of_written (hseekable : w.seekable = true) (hstream : w.stream = some f)
    (h : w.error = false → w.offset = bytes.length ∧ w.backpatching = false ∧
      Written io w f bytes) : Sound io attached w bytes := by
  refine ⟨fun _ => hstream ▸ rfl, fun herror => ?_⟩
  obtain ⟨hoffset, hdirect, hwritten⟩ := h herror
  exact ⟨hoffset, .written hseekable f hstream hdirect hwritten⟩

/-- The cache goes to the stream. -/
theorem Sound.flushBackPatchCache (h : Sound io attached w bytes) (herror : w.error = false)
    (hseekable : w.seekable = true) : ∃ f' writeFailed currSeek backpatching,
      w.flushBackPatchCache io =
        some { w with stream := some f', writeFailed, currSeek, backpatching } ∧
      (writeFailed = false →
        backpatching = false ∧ io.bytes f' = bytes ∧ Placed io currSeek f') := by
  unfold ILWriter.flushBackPatchCache
  cases (h.inv herror).2 with
  | buffered hnot => exact absurd (hseekable.symm.trans hnot) nofun
  | written _ f hstream hdirect hwritten =>
    refine ⟨f, w.writeFailed, w.currSeek, w.backpatching, ?_, fun _ =>
      ⟨hdirect, hwritten.bytes_eq, hwritten.placed⟩⟩
    rw [if_neg (Bool.not_eq_true _ ▸ hdirect), ← hstream]
  | cached _ f hstream hcache hcached =>
    obtain ⟨⟨buf, hbuf, hlength, hpatch⟩, hinside, hlengths⟩ := hcached
    rw [if_pos hcache]
    obtain ⟨ok, f', heq, hspec⟩ := seekTo_spec hstream io w.backpatchSeek
    rw [heq]
    cases ok with
    | false =>
      refine ⟨f', _, _, _, rfl, fun hnot => ?_⟩
      rw [Bool.not_false, Bool.or_true] at hnot
      cases hnot
    | true =>
      obtain ⟨hbytes, hposn, hmode⟩ := hspec rfl (by omega)
      obtain ⟨ok, f'', heq', hspec'⟩ := writeOut_spec
        (w := { w with stream := some f', writeFailed := w.writeFailed || !true }) rfl io
        (buf.take w.backpatchLen)
      rw [hbuf] at heq'
      simp only [hbuf, Option.bind_eq_bind, Option.bind_some, heq']
      cases ok with
      | false =>
        refine ⟨f'', _, _, _, rfl, fun hnot => ?_⟩
        rw [Bool.not_false, Bool.or_true] at hnot
        cases hnot
      | true =>
        refine ⟨f'', _, some (w.backpatchSeek + w.backpatchLen), false, rfl, fun _ => ⟨rfl, ?_⟩⟩
        obtain ⟨hbytes', hposn', hmode'⟩ := hspec' rfl (by rw [hmode]; nofun)
          (by rw [hbytes, hposn]; omega)
        rw [List.take_of_length_le hlength.le, hposn, hbytes] at hbytes'
        rw [List.take_of_length_le hlength.le, hposn, hlength] at hposn'
        have hall : io.bytes f'' = bytes := hbytes'.trans hpatch
        refine ⟨hall, fun posn' heq => ?_, fun posn' heq => ?_, fun _ => ?_⟩
        · cases heq
          rw [hall]
          exact hinside
        · cases heq
          exact hposn'
        · rw [hmode']
          nofun

theorem Sound.writeToImage (h : Sound io attached w bytes) (part : List ILUInt8) (memory : Bool) :
    ∃ w', w.writeToImage io part memory = some w' ∧ Sound io attached w' (bytes ++ part) := by
  unfold ILWriter.writeToImage
  cases herror : w.error with
  | true => exact ⟨w, rfl, .of_error h.live herror⟩
  | false =>
    obtain ⟨hoffset, hinv⟩ := h.inv herror
    cases hseekable : w.seekable with
    | true =>
      obtain ⟨f', writeFailed, currSeek, backpatching, hflush, hspec⟩ :=
        h.flushBackPatchCache herror hseekable
      obtain ⟨ok, f'', currSeek', hwrite, hspec'⟩ := writeAt_spec
        (w := { w with stream := some f', writeFailed, currSeek, backpatching }) rfl io w.offset part
      simp only [Bool.false_eq_true, ↓reduceIte, hflush, Option.bind_eq_bind, Option.bind_some,
        hwrite]
      cases ok with
      | false =>
        refine ⟨_, rfl, .of_error (fun _ => rfl) ?_⟩
        simp [ILWriter.error]
      | true =>
        refine ⟨_, rfl, .of_written hseekable rfl fun herror' => ?_⟩
        obtain ⟨hbackpatching, hbytes, hplaced⟩ :=
          hspec (by simpa using (error_eq_false.1 herror').2)
        obtain ⟨hbytes', hseek, hplaced'⟩ := hspec' rfl hplaced (by rw [hbytes, hoffset])
        rw [hbytes, hoffset, patch_length] at hbytes'
        exact ⟨by rw [List.length_append, hoffset], hbackpatching, hbytes', hplaced'⟩
    | false =>
      cases hinv with
      | written hnot | cached hnot => exact absurd (hnot.symm.trans hseekable) nofun
      | buffered _ hbuffered =>
        cases memory with
        | false => exact ⟨_, rfl, .of_error (fun hlive => h.live (hlive.imp_left nofun)) rfl⟩
        | true =>
          refine ⟨_, rfl, fun hlive => h.live (hlive.imp_left nofun), fun _ => ⟨?_, .buffered rfl ?_⟩⟩
          · rw [List.length_append, hoffset]
          · refine ⟨hbuffered.wellFormed.add (by decide) part, ?_, hbuffered.fresh, ?_,
              hbuffered.direct⟩
            · rw [hbuffered.wellFormed.contents_add (by decide), hbuffered.contents_eq]
            · rw [List.length_append, hoffset]

theorem writePieces_spec (hstream : w.stream = some f) (io : Stdio F)
    (pieces : List (List ILUInt8)) :
    ∃ f' writeFailed, w.writePieces io pieces = some { w with stream := some f', writeFailed } ∧
      (writeFailed = false → io.mode f ≠ .reading → io.posn f = (io.bytes f).length →
        io.bytes f' = io.bytes f ++ pieces.flatten ∧ io.mode f' ≠ .reading ∧
          io.posn f' = (io.bytes f').length) := by
  induction pieces generalizing w f with
  | nil =>
    refine ⟨f, w.writeFailed, by rw [ILWriter.writePieces, ← hstream], fun _ hmode hposn => ?_⟩
    exact ⟨(List.append_nil _).symm, hmode, hposn⟩
  | cons piece rest ih =>
    obtain ⟨ok, f', heq, hspec⟩ := writeOut_spec hstream io piece
    simp only [ILWriter.writePieces, heq, Option.bind_eq_bind, Option.bind_some]
    cases ok with
    | false =>
      refine ⟨f', _, rfl, fun hnot => ?_⟩
      rw [Bool.not_false, Bool.or_true] at hnot
      cases hnot
    | true =>
      obtain ⟨f'', writeFailed, hrest, hspec'⟩ := ih
        (w := { w with stream := some f', writeFailed := w.writeFailed || !true }) rfl
      refine ⟨f'', writeFailed, hrest, fun hok hmode hposn => ?_⟩
      obtain ⟨hbytes, hposn', hmode'⟩ := hspec rfl hmode hposn.le
      rw [hposn, patch_length] at hbytes
      obtain ⟨hall, hend⟩ := hspec' hok (by rw [hmode']; nofun)
        (by rw [hposn', hposn, hbytes, List.length_append])
      refine ⟨?_, hend⟩
      rw [hall, hbytes, List.flatten_cons, List.append_assoc]

/-- After a flush the bytes are in the stream. -/
theorem Sound.writeFlush (h : Sound io attached w bytes) (hstream : w.stream.isSome = true) :
    ∃ w' f, w.writeFlush io = some w' ∧ w'.stream = some f ∧
      (w'.error = false → w'.offset = bytes.length ∧ w'.backpatching = false ∧
        Written io w' f bytes) := by
  unfold ILWriter.writeFlush
  cases herror : w.error with
  | true =>
    obtain ⟨f, hf⟩ := Option.isSome_iff_exists.1 hstream
    exact ⟨w, f, rfl, hf, fun hnot => absurd (hnot.symm.trans herror) nofun⟩
  | false =>
    obtain ⟨hoffset, hinv⟩ := h.inv herror
    cases hseekable : w.seekable with
    | true =>
      obtain ⟨f', writeFailed, currSeek, backpatching, hflush, hspec⟩ :=
        h.flushBackPatchCache herror hseekable
      refine ⟨_, f', hflush, rfl, fun herror' => ?_⟩
      obtain ⟨hbackpatching, hbytes, hplaced⟩ := hspec (error_eq_false.1 herror').2
      exact ⟨hoffset, hbackpatching, hbytes, hplaced⟩
    | false =>
      cases hinv with
      | written hnot | cached hnot => exact absurd (hnot.symm.trans hseekable) nofun
      | buffered _ hbuffered =>
        obtain ⟨f, hf⟩ := Option.isSome_iff_exists.1 hstream
        obtain ⟨f', writeFailed, hpieces, hspec⟩ :=
          writePieces_spec hf io (w.streamBuffer.pieces writeBufferSize)
        refine ⟨_, f', hpieces, rfl, fun herror' => ⟨hoffset, hbuffered.direct, ?_⟩⟩
        have hfresh := hbuffered.fresh f hf
        obtain ⟨hbytes, hmode, hposn⟩ := hspec (error_eq_false.1 herror').2 hfresh.mode_ne
          (by rw [hfresh.posn_eq, hfresh.bytes_eq, List.length_nil])
        rw [hfresh.bytes_eq, List.nil_append, hbuffered.wellFormed.flatten_pieces,
          hbuffered.contents_eq] at hbytes
        refine ⟨hbytes, fun posn' heq => ?_, fun posn' heq => ?_, fun _ => hmode⟩
        · cases hbuffered.currSeek_eq.symm.trans heq
          rw [hbytes]
        · cases hbuffered.currSeek_eq.symm.trans heq
          rw [hposn, hbytes]

section BackPatch

variable (hseekable : w.seekable = true) (hstream : w.stream = some f)
  (hinside : posn + part.length ≤ bytes.length)
include hseekable hstream hinside

theorem sound_fallback (h : w.error = false → w.offset = bytes.length ∧ w.backpatching = false ∧
      Written io w f bytes) :
    ∃ w', w.fallback io posn part = some w' ∧ Sound io attached w' (patch bytes posn part) := by
  obtain ⟨ok, f', currSeek, hwrite, hspec⟩ := writeAt_spec hstream io posn part
  refine ⟨_, by simp only [ILWriter.fallback, hwrite, Option.bind_eq_bind, Option.bind_some]; rfl, ?_⟩
  refine Sound.of_written hseekable rfl fun herror => ?_
  obtain ⟨hmemory, hfailed⟩ := error_eq_false.1 herror
  obtain ⟨hfailed, hok⟩ := Bool.or_eq_false_iff.1 hfailed
  obtain ⟨hoffset, hdirect, hwritten⟩ := h (error_eq_false.2 ⟨hmemory, hfailed⟩)
  obtain ⟨hbytes, -, hplaced⟩ := hspec (by simpa using hok) hwritten.placed
    (by rw [hwritten.bytes_eq]; omega)
  rw [hwritten.bytes_eq] at hbytes
  exact ⟨by rw [length_patch hinside]; exact hoffset, hdirect, hbytes, hplaced⟩

theorem sound_patchInCache (hsize : part.length ≤ 4)
    (h : w.error = false → w.offset = bytes.length ∧ w.backpatching = false ∧
      Written io w f bytes) :
    ∃ w', w.patchInCache io posn part = some w' ∧ Sound io attached w' (patch bytes posn part) := by
  simp only [ILWriter.patchInCache]
  generalize hseek : posn / 512 * 512 = seek
  generalize hlen : min (w.offset - seek) writeBufferSize = len
  have hle : seek ≤ posn ∧ posn - seek < 512 := by omega
  obtain ⟨ok, f', heq, hspec⟩ := seekTo_spec
    (w := { w with backpatchSeek := seek, backpatchLen := len }) hstream io seek
  simp only [heq]
  cases ok with
  | false =>
    refine ⟨_, rfl, .of_error (fun _ => rfl) ?_⟩
    simp [ILWriter.error]
  | true =>
    obtain ⟨block, f'', hread, hspec'⟩ := readIn_spec
      (w := { w with
        backpatchSeek := seek
        backpatchLen := len
        stream := some f'
        writeFailed := w.writeFailed || !true }) rfl io len
    simp only [hread, Option.bind_eq_bind, Option.bind_some]
    -- what an error that came before leaves open
    have hbefore : w.error = false → io.bytes f'' = bytes ∧
        (block.length = len → block = (bytes.drop seek).take len) := by
      intro herror
      obtain ⟨-, -, hwritten⟩ := h herror
      obtain ⟨hbytes, hposn, hmode⟩ := hspec rfl (by rw [hwritten.bytes_eq]; omega)
      obtain ⟨hbytes', hblock⟩ := hspec' (by rw [hmode]; nofun)
      rw [hposn, hbytes, hwritten.bytes_eq] at hblock
      exact ⟨by rw [hbytes', hbytes, hwritten.bytes_eq], hblock⟩
    split_ifs with hread
    · refine ⟨_, rfl, fun _ => rfl, fun herror => ?_⟩
      have herror' : w.error = false := by simpa [ILWriter.error] using herror
      obtain ⟨hoffset, -, -⟩ := h herror'
      obtain ⟨hbytes, hblock⟩ := hbefore herror'
      have hlen' : seek + len ≤ bytes.length ∧ posn - seek + part.length ≤ len := by
        rw [← hlen, hoffset, writeBufferSize]
        omega
      refine ⟨by rw [length_patch hinside]; exact hoffset, .cached hseekable f'' rfl rfl ?_⟩
      refine ⟨⟨_, rfl, ?_, ?_⟩, ?_, ?_⟩
      · rw [length_patch (hread ▸ hlen'.2), hread]
      · rw [hbytes, patch_patch (by rw [hread]; exact hlen'.1) (hread ▸ hlen'.2), hblock hread,
          patch_self _ _ _ hlen'.1, Nat.add_sub_cancel' hle.1]
      · rw [length_patch hinside]
        exact hlen'.1
      · rw [hbytes, length_patch hinside]
    · refine sound_fallback (f := f'') hseekable rfl hinside fun herror => ?_
      have herror' : w.error = false := by simpa [ILWriter.error] using herror
      obtain ⟨hoffset, hdirect, -⟩ := h herror'
      exact ⟨hoffset, hdirect, (hbefore herror').1, nofun, nofun, nofun⟩

end BackPatch

theorem Sound.writeBackPatchBytes (h : Sound io attached w bytes)
    (hinside : posn + part.length ≤ bytes.length) :
    ∃ w', w.writeBackPatchBytes io posn part = some w' ∧ Sound io attached w' (patch bytes posn part) := by
  unfold ILWriter.writeBackPatchBytes
  cases herror : w.error with
  | true => exact ⟨w, rfl, .of_error h.live herror⟩
  | false =>
    obtain ⟨hoffset, hinv⟩ := h.inv herror
    cases hseekable : w.seekable with
    | true =>
      simp only [Bool.false_eq_true, ↓reduceIte]
      split_ifs with hhit
      · obtain ⟨hcache, hle, hend⟩ := hhit
        cases hinv with
        | buffered hnot => exact absurd (hnot.symm.trans hseekable) nofun
        | written _ _ _ hdirect => exact absurd (hdirect.symm.trans hcache) nofun
        | cached _ f hstream _ hcached =>
          obtain ⟨⟨buf, hbuf, hlength, hpatch⟩, hwindow, hlengths⟩ := hcached
          rw [hbuf]
          refine ⟨_, rfl, fun _ => hstream ▸ rfl, fun _ => ?_⟩
          refine ⟨by rw [length_patch hinside]; exact hoffset, .cached rfl f hstream hcache ?_⟩
          have hfits : posn - w.backpatchSeek + part.length ≤ buf.length := by omega
          refine ⟨⟨_, rfl, ?_, ?_⟩, ?_, ?_⟩
          · rw [length_patch hfits, hlength]
          · rw [patch_patch (by rwa [hlength, hlengths]) hfits, hpatch, Nat.add_sub_cancel' hle]
          · rw [length_patch hinside]
            exact hwindow
          · rw [hlengths, length_patch hinside]
      · obtain ⟨f', writeFailed, currSeek, backpatching, hflush, hspec⟩ :=
          h.flushBackPatchCache herror hseekable
        simp only [hflush, Option.bind_eq_bind, Option.bind_some]
        have hflushed : ({ w with
              stream := some f'
              writeFailed
              currSeek
              backpatching } : ILWriter F).error = false →
            w.offset = bytes.length ∧ backpatching = false ∧
              Written io { w with stream := some f', writeFailed, currSeek, backpatching } f' bytes := by
          intro herror'
          obtain ⟨hbackpatching, hbytes, hplaced⟩ := hspec (error_eq_false.1 herror').2
          exact ⟨hoffset, hbackpatching, hbytes, hplaced⟩
        split_ifs with hsmall
        · exact sound_patchInCache hseekable rfl hinside hsmall.1 hflushed
        · exact sound_fallback hseekable rfl hinside hflushed
    | false =>
      cases hinv with
      | written hnot | cached hnot => exact absurd (hnot.symm.trans hseekable) nofun
      | buffered _ hbuffered =>
        obtain ⟨buffers, hover, hwell, hcontents⟩ := hbuffered.wellFormed.overwrite
          (hbuffered.contents_eq ▸ hinside) (by decide)
        simp only [Bool.false_eq_true, ↓reduceIte, hover, Option.bind_eq_bind, Option.bind_some]
        refine ⟨_, rfl, fun hlive => h.live (hlive.imp_left nofun),
          fun _ => ⟨?_, .buffered rfl ?_⟩⟩
        · rw [length_patch hinside]
          exact hoffset
        · refine ⟨hwell, ?_, hbuffered.fresh, ?_, hbuffered.direct⟩
          · rw [hcontents, hbuffered.contents_eq]
          · rw [length_patch hinside]
            exact hbuffered.currSeek_eq

theorem Sound.ilWriterSetStream (h : Sound io attached w bytes) (hfresh : io.Fresh f)
    (seekable : Bool) :
    ∃ w', w.ilWriterSetStream io f seekable = some w' ∧ Sound io true w' bytes := by
  unfold ILWriter.ilWriterSetStream
  cases hstream : w.stream with
  | some f' => exact ⟨w, rfl, fun _ => hstream ▸ rfl, h.inv⟩
  | none =>
    have hseekable : w.seekable = false := by
      rw [← Bool.not_eq_true]
      intro hseekable
      have hlive := h.live (.inl hseekable)
      rw [hstream] at hlive
      cases hlive
    -- the buffers are the same, and the stream is new
    have hset : Sound io true { w with stream := some f } bytes := by
      refine ⟨fun _ => rfl, fun herror => ?_⟩
      obtain ⟨hoffset, hinv⟩ := h.inv herror
      cases hinv with
      | written hnot | cached hnot => exact absurd (hnot.symm.trans hseekable) nofun
      | buffered _ hbuffered =>
        refine ⟨hoffset, .buffered hseekable ⟨hbuffered.wellFormed, hbuffered.contents_eq, ?_,
          hbuffered.currSeek_eq, hbuffered.direct⟩⟩
        intro f' heq
        cases heq
        exact hfresh
    cases seekable with
    | true =>
      obtain ⟨w', f', hflush, hstream', hspec⟩ := hset.writeFlush rfl
      simp only [↓reduceIte, hflush, Option.bind_eq_bind, Option.bind_some]
      refine ⟨_, rfl, .of_written rfl hstream' fun herror => ?_⟩
      obtain ⟨hoffset, hdirect, hwritten⟩ := hspec herror
      exact ⟨hoffset, hdirect, hwritten.bytes_eq, hwritten.placed⟩
    | false =>
      refine ⟨_, rfl, fun _ => rfl, fun herror => ?_⟩
      obtain ⟨hoffset, hinv⟩ := hset.inv herror
      cases hinv with
      | written hnot | cached hnot => exact absurd (hnot.symm.trans hseekable) nofun
      | buffered _ hbuffered =>
        exact ⟨hoffset, .buffered rfl ⟨hbuffered.wellFormed, hbuffered.contents_eq,
          hbuffered.fresh, hbuffered.currSeek_eq, hbuffered.direct⟩⟩

theorem Sound.writeBlockPadding (h : Sound io attached w bytes) (size : Nat) (memory : Bool) :
    ∃ w', w.writeBlockPadding io size memory = some w' ∧
      Sound io attached w' (Op.apply bytes (.pad size memory : Op F)) := by
  simp only [ILWriter.writeBlockPadding, Op.apply]
  cases herror : w.error with
  | true =>
    refine ⟨w, ?_, .of_error h.live herror⟩
    unfold ILWriter.writeToImage
    rw [herror, if_pos rfl, ite_self]
  | false =>
    rw [(h.inv herror).1]
    split_ifs with haligned
    · exact h.writeToImage _ memory
    · exact ⟨w, rfl, h⟩

/-! ### Runs -/

/-- One step. -/
theorem Sound.run (h : Sound io attached w bytes) {op : Op F} (hallowed : op.Allowed io bytes) :
    ∃ w', op.run io w = some w' ∧ Sound io (attached || op.sets) w' (op.apply bytes) := by
  cases op with
  | append part memory =>
    simp only [Op.sets, Bool.or_false]
    exact h.writeToImage part memory
  | pad size memory =>
    simp only [Op.sets, Bool.or_false]
    exact h.writeBlockPadding size memory
  | backPatch posn part =>
    simp only [Op.sets, Bool.or_false]
    exact h.writeBackPatchBytes hallowed
  | setStream f seekable =>
    simp only [Op.sets, Bool.or_true]
    exact h.ilWriterSetStream hallowed seekable

theorem Sound.runAll (h : Sound io attached w bytes) {ops : List (Op F)}
    (hallowed : Op.AllAllowed io bytes ops) (hattached : attached = true ∨ ops.any Op.sets) :
    ∃ w' f, Op.runAll io w ops = some w' ∧ w'.stream = some f ∧
      (w'.error = false → io.bytes f = ops.foldl Op.apply bytes) := by
  induction ops generalizing w bytes attached with
  | nil =>
    have hlive := h.live (.inr (hattached.resolve_right Bool.false_ne_true))
    obtain ⟨w', f, hflush, hstream, hspec⟩ := h.writeFlush hlive
    exact ⟨w', f, hflush, hstream, fun herror => (hspec herror).2.2.bytes_eq⟩
  | cons op ops ih =>
    obtain ⟨w', hrun, hsound⟩ := h.run hallowed.1
    have hattached' : (attached || op.sets) = true ∨ ops.any Op.sets = true := by
      rw [List.any_cons, Bool.or_eq_true] at hattached
      rwa [Bool.or_eq_true, or_assoc]
    obtain ⟨w'', f, hrest, hspec⟩ := ih hsound hallowed.2 hattached'
    exact ⟨w'', f, by rw [Op.runAll, hrun, Option.bind_eq_bind, Option.bind_some, hrest], hspec⟩

theorem sound_ilWriterCreate {stream : Option F} (hfresh : ∀ f, stream = some f → io.Fresh f)
    (seekable memory : Bool) :
    Sound io stream.isSome (.ilWriterCreate stream seekable memory) [] := by
  cases stream with
  | none =>
    refine ⟨fun hlive => hlive.elim id id, fun _ => ⟨rfl, .buffered rfl ?_⟩⟩
    exact ⟨Chunks.wellFormed_empty, rfl, nofun, rfl, rfl⟩
  | some f =>
    refine ⟨fun _ => rfl, fun _ => ⟨rfl, ?_⟩⟩
    have hnew := hfresh f rfl
    cases seekable with
    | false => exact .buffered rfl ⟨Chunks.wellFormed_empty, rfl, hfresh, rfl, rfl⟩
    | true =>
      refine .written rfl f rfl rfl ⟨hnew.bytes_eq, fun posn heq => ?_, fun posn heq => ?_,
        fun _ => hnew.mode_ne⟩
      · cases heq
        exact Nat.zero_le _
      · cases heq
        exact hnew.posn_eq

/-- After the final flush, the stream of a writer without an error has the bytes that the
operations make of one array. -/
theorem runAll_ilWriterCreate (io : Stdio F) (stream : Option F) (seekable memory : Bool)
    (ops : List (Op F)) (hfresh : ∀ f, stream = some f → io.Fresh f)
    (hallowed : Op.AllAllowed io [] ops)
    (hattached : stream.isSome = true ∨ ops.any Op.sets = true) :
    ∃ w f, Op.runAll io (.ilWriterCreate stream seekable memory) ops = some w ∧
      w.stream = some f ∧ (w.error = false → io.bytes f = ops.foldl Op.apply []) :=
  (sound_ilWriterCreate hfresh seekable memory).runAll hallowed hattached

/-- A stream that is attached part-way. -/
theorem runAll_attached :
    ∃ w f, Op.runAll (Stdio.file true) (.ilWriterCreate none true true)
        [.append [1, 2, 3] true, .backPatch 1 [7], .setStream {} true, .pad 8 true,
          .backPatch 0 [9]] = some w ∧
      w.stream = some f ∧ (w.error = false → (Stdio.file true).bytes f = [9, 7, 3, 0, 0, 0, 0, 0]) :=
  runAll_ilWriterCreate (Stdio.file true) none true true
    [.append [1, 2, 3] true, .backPatch 1 [7], .setStream {} true, .pad 8 true, .backPatch 0 [9]]
    nofun ⟨trivial, Nat.le_of_ble_eq_true rfl, Stdio.fresh_file true, trivial,
      Nat.le_of_ble_eq_true rfl, trivial⟩ (.inr rfl)

end Pnet.Image.WriterStream
