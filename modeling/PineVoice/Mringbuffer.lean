import PineVoice.Transition
import PineVoice.Circular

/-!
# The ring buffer of the audio streams

The two indices have a mirror bit that flips each time the index wraps, so that every byte can be
used. Besides `put` and `get` the buffer can be moved along by the index that a DMA channel
reports: `put_index` takes over bytes that are already there, `get_index` gives up bytes that were
taken. A call returns the ranges it passes to cache operations.
-/

namespace PineVoice.AudioRing

open Transition Circular

/-- `struct mringbuffer` with the buffer it points to. -/
structure Mringbuffer where
  /-- `buffer_ptr`. -/
  bufferPtr : ℕ → UInt8
  /-- `read_mirror`. -/
  readMirror : Bool
  /-- `read_index`. -/
  readIndex : ℕ
  /-- `write_mirror`. -/
  writeMirror : Bool
  /-- `write_index`. -/
  writeIndex : ℕ
  /-- `buffer_size`. -/
  bufferSize : ℕ

/-- `mringbuffer_init`, for the size rounded down to a multiple of eight. -/
def Mringbuffer.empty (pool : ℕ → UInt8) (size : ℕ) : Mringbuffer := ⟨pool, false, 0, false, 0, size⟩

/-- `mringbuffer_reset`. -/
def mringbufferReset (rb : Mringbuffer) : Mringbuffer :=
  { rb with readMirror := false, readIndex := 0, writeMirror := false, writeIndex := 0 }

/-- `enum mringbuffer_state`. -/
inductive RingState where
  | empty
  | full
  | halffull

/-- `mringbuffer_status`. -/
def mringbufferStatus (rb : Mringbuffer) : RingState :=
  if rb.readIndex = rb.writeIndex then
    if rb.readMirror = rb.writeMirror then .empty else .full
  else .halffull

/-- `mringbuffer_data_len`. -/
def mringbufferDataLen (rb : Mringbuffer) : ℕ :=
  match mringbufferStatus rb with
  | .empty => 0
  | .full => rb.bufferSize
  | .halffull =>
    if rb.readIndex < rb.writeIndex then rb.writeIndex-rb.readIndex
    else rb.bufferSize-(rb.readIndex-rb.writeIndex)

/-- `mringbuffer_space_len`. -/
def mringbufferSpaceLen (rb : Mringbuffer) : ℕ := rb.bufferSize-mringbufferDataLen rb

/-- What a call of `mringbuffer_put_fflush_cache` does. -/
structure Put where
  /-- The buffer after it. -/
  rb : Mringbuffer
  /-- The result. -/
  length : ℕ
  /-- The ranges passed to `fflush_cache`. -/
  flushed : List (ℕ × ℕ)

/-- `mringbuffer_put_fflush_cache`; `ptr` is the data or `NULL`. -/
def mringbufferPutFflushCache (rb : Mringbuffer) (ptr : Option (List UInt8)) (length : ℕ)
    (fflushCache : Bool) : Put :=
  let size := mringbufferSpaceLen rb
  if size = 0 then ⟨rb, 0, []⟩
  else
    let length := if size < length then size else length
    let first := rb.bufferSize-rb.writeIndex
    if length < first then
      match ptr with
      | some data =>
        ⟨{ rb with
            bufferPtr := copy rb.bufferPtr rb.writeIndex (data.take length)
            writeIndex := rb.writeIndex+length },
          length, if fflushCache then [(rb.writeIndex, length)] else []⟩
      | none => ⟨{ rb with writeIndex := rb.writeIndex+length }, length, []⟩
    else
      match ptr with
      | some data =>
        ⟨{ rb with
            bufferPtr := copy (copy rb.bufferPtr rb.writeIndex (data.take first)) 0
              ((data.drop first).take (length-first))
            writeMirror := !rb.writeMirror
            writeIndex := length-first },
          length, if fflushCache then [(rb.writeIndex, first), (0, length-first)] else []⟩
      | none =>
        ⟨{ rb with writeMirror := !rb.writeMirror, writeIndex := length-first }, length, []⟩

/-- `mringbuffer_put`: the same without the cache. -/
def mringbufferPut (rb : Mringbuffer) (ptr : Option (List UInt8)) (length : ℕ) :
    Mringbuffer × ℕ :=
  let put := mringbufferPutFflushCache rb ptr length false
  (put.rb, put.length)

/-- The end of `mringbuffer_put_index`, with `put_size`. -/
def putSizeBytes (rb : Mringbuffer) (putSize : ℕ) : Mringbuffer × ℤ :=
  if putSize = 0 then (rb, 0) else ((mringbufferPut rb none putSize).1, putSize)

/-- `mringbuffer_put_index`. -/
def mringbufferPutIndex (rb : Mringbuffer) (wIndex : ℕ) : Mringbuffer × ℤ :=
  if mringbufferSpaceLen rb = 0 then (rb, -1)
  else if rb.readIndex ≤ rb.writeIndex then
    if rb.writeIndex < wIndex then putSizeBytes rb (wIndex-rb.writeIndex)
    else if wIndex ≤ rb.readIndex then putSizeBytes rb (rb.bufferSize-(rb.writeIndex-wIndex))
    else (rb, -2)
  else if rb.writeIndex < wIndex ∧ wIndex ≤ rb.readIndex then
    putSizeBytes rb (wIndex-rb.writeIndex)
  else (rb, -3)

/-- What a call of `mringbuffer_get_invalid_cache` does. -/
structure Got where
  /-- The buffer after it. -/
  rb : Mringbuffer
  /-- The result. -/
  length : ℕ
  /-- The bytes copied to `ptr`. -/
  bytes : List UInt8
  /-- The ranges passed to `remove_cache`. -/
  removed : List (ℕ × ℕ)

/-- `mringbuffer_get_invalid_cache`; `ptr` says whether there is a place for the data. -/
def mringbufferGetInvalidCache (rb : Mringbuffer) (ptr : Bool) (length : ℕ)
    (removeCache : Bool) : Got :=
  let size := mringbufferDataLen rb
  if size = 0 then ⟨rb, 0, [], []⟩
  else
    let length := if size < length then size else length
    let first := rb.bufferSize-rb.readIndex
    if length < first then
      ⟨{ rb with readIndex := rb.readIndex+length }, length,
        if ptr then load rb.bufferPtr rb.readIndex length else [],
        if ptr && removeCache then [(rb.readIndex, length)] else []⟩
    else
      ⟨{ rb with readMirror := !rb.readMirror, readIndex := length-first }, length,
        if ptr then load rb.bufferPtr rb.readIndex first ++ load rb.bufferPtr 0 (length-first)
        else [],
        if ptr && removeCache then [(rb.readIndex, first), (0, length-first)] else []⟩

/-- `mringbuffer_get`: the same without the cache. -/
def mringbufferGet (rb : Mringbuffer) (ptr : Bool) (length : ℕ) :
    Mringbuffer × ℕ × List UInt8 :=
  let got := mringbufferGetInvalidCache rb ptr length false
  (got.rb, got.length, got.bytes)

/-- The end of `mringbuffer_get_index`, with `get_size`. -/
def getSizeBytes (rb : Mringbuffer) (getSize : ℕ) : Mringbuffer × ℕ :=
  if getSize = 0 then (rb, 0) else ((mringbufferGet rb false getSize).1, getSize)

/-- `mringbuffer_get_index`; the result is a 32-bit word. -/
def mringbufferGetIndex (rb : Mringbuffer) (rIndex : ℕ) : Mringbuffer × ℕ :=
  if mringbufferDataLen rb = 0 then (rb, 2^32-1)
  else if rb.writeIndex ≤ rb.readIndex then
    if rb.readIndex < rIndex then getSizeBytes rb (rIndex-rb.readIndex)
    else if rIndex ≤ rb.writeIndex then getSizeBytes rb (rb.bufferSize-(rb.readIndex-rIndex))
    else (rb, 2^32-2)
  else if rb.readIndex < rIndex ∧ rIndex ≤ rb.writeIndex then
    getSizeBytes rb (rIndex-rb.readIndex)
  else (rb, 2^32-3)

/-- `mringbuffer_peek`; `*ptr` is an offset in the buffer. -/
def mringbufferPeek (rb : Mringbuffer) : Mringbuffer × ℕ × Option ℕ :=
  let size := mringbufferDataLen rb
  if size = 0 then (rb, 0, none)
  else if size < rb.bufferSize-rb.readIndex then
    ({ rb with readIndex := rb.readIndex+size }, size, some rb.readIndex)
  else
    ({ rb with readMirror := !rb.readMirror, readIndex := 0 }, rb.bufferSize-rb.readIndex,
      some rb.readIndex)

/-- `mringbuffer_putchar`. -/
def mringbufferPutchar (rb : Mringbuffer) (ch : UInt8) : Mringbuffer × ℕ :=
  if mringbufferSpaceLen rb = 0 then (rb, 0)
  else
    let bufferPtr := copy rb.bufferPtr rb.writeIndex [ch]
    if rb.writeIndex = rb.bufferSize-1 then
      ({ rb with bufferPtr := bufferPtr, writeMirror := !rb.writeMirror, writeIndex := 0 }, 1)
    else ({ rb with bufferPtr := bufferPtr, writeIndex := rb.writeIndex+1 }, 1)

/-- `mringbuffer_getchar`; the second result is what is stored in `*ch`. -/
def mringbufferGetchar (rb : Mringbuffer) (ch : Bool) : Mringbuffer × ℕ × List UInt8 :=
  if mringbufferDataLen rb = 0 then (rb, 0, [])
  else
    let bytes := if ch then [rb.bufferPtr rb.readIndex] else []
    if rb.readIndex = rb.bufferSize-1 then
      ({ rb with readMirror := !rb.readMirror, readIndex := 0 }, 1, bytes)
    else ({ rb with readIndex := rb.readIndex+1 }, 1, bytes)

/-- The data of a put: bytes, or `NULL` and a length. -/
inductive Source where
  | bytes (data : List UInt8)
  | null (length : ℕ)

/-- `ptr`. -/
def Source.ptr : Source → Option (List UInt8)
  | .bytes data => some data
  | .null _ => none

/-- `length`. -/
def Source.length : Source → ℕ
  | .bytes data => data.length
  | .null length => length

/-- The calls, and the DMA channel. -/
inductive Call where
  | put (source : Source)
  | putFflushCache (source : Source) (fflushCache : Bool)
  | putchar (ch : UInt8)
  | putIndex (wIndex : ℕ)
  | get (ptr : Bool) (length : ℕ)
  | getInvalidCache (ptr : Bool) (length : ℕ) (removeCache : Bool)
  | getchar (ch : Bool)
  | getIndex (rIndex : ℕ)
  | peek
  /-- The DMA channel stores a byte in the free space, `k` bytes behind the write index. -/
  | dma (k : ℕ) (b : UInt8)

/-- What a caller sees: the result and the bytes it was given. -/
structure Result where
  /-- The result. -/
  ret : ℤ
  /-- The bytes. -/
  bytes : List UInt8
deriving DecidableEq

/-- A call. -/
def Mringbuffer.call (rb : Mringbuffer) : Call → Mringbuffer × Result
  | .put source =>
    let r := mringbufferPut rb source.ptr source.length
    (r.1, ⟨r.2, []⟩)
  | .putFflushCache source fflushCache =>
    let r := mringbufferPutFflushCache rb source.ptr source.length fflushCache
    (r.rb, ⟨r.length, []⟩)
  | .putchar ch =>
    let r := mringbufferPutchar rb ch
    (r.1, ⟨r.2, []⟩)
  | .putIndex wIndex =>
    let r := mringbufferPutIndex rb wIndex
    (r.1, ⟨r.2, []⟩)
  | .get ptr length =>
    let r := mringbufferGet rb ptr length
    (r.1, ⟨r.2.1, r.2.2⟩)
  | .getInvalidCache ptr length removeCache =>
    let r := mringbufferGetInvalidCache rb ptr length removeCache
    (r.rb, ⟨r.length, r.bytes⟩)
  | .getchar ch =>
    let r := mringbufferGetchar rb ch
    (r.1, ⟨r.2.1, r.2.2⟩)
  | .getIndex rIndex =>
    let r := mringbufferGetIndex rb rIndex
    (r.1, ⟨r.2, []⟩)
  | .peek =>
    let r := mringbufferPeek rb
    (r.1, ⟨r.2.1, r.2.2.elim [] fun p => load r.1.bufferPtr p r.2.1⟩)
  | .dma k b =>
    if k < mringbufferSpaceLen rb then
      ({ rb with
        bufferPtr := Function.update rb.bufferPtr ((rb.writeIndex+k) % rb.bufferSize) b },
        ⟨0, []⟩)
    else (rb, ⟨0, []⟩)

end PineVoice.AudioRing
