import PineVoice.MringbufferFifo
import Mathlib.Data.List.GetD

/-!
# The audio output

The DMA channel plays the bytes of the output ring in place (`codec_output.c`). `_auo_recv` clears
what was played and moves the read index; `auo_ringbuff_format` moves what is queued to the start
before the channel is started again. Trace counters, the time of the last interrupt, messages and
cache operations are left out.
-/

namespace PineVoice.AudioRing

open Circular List

/-- The events that the callback is given. -/
inductive AuoEvent where
  /-- `BL_EVENT_WRITE_BUFFER_EMPTY`. -/
  | writeBufferEmpty
  /-- `BL_EVENT_NODE_WRITE_COMPLETE`. -/
  | nodeWriteComplete
deriving DecidableEq

/-- `auo_ch_t`. The pool of the ring is the buffer of the DMA nodes. -/
structure AuoCh where
  /-- `ringbuffer`. -/
  ringbuffer : Mringbuffer
  /-- `head`: the address of the buffer. -/
  head : ℕ
  /-- `per_node_size`. -/
  perNodeSize : ℕ
  /-- `maxcount`: the number of nodes. -/
  maxcount : ℕ
  /-- `callback` is set. -/
  callback : Bool

section Interrupt

/-- `ar`: how far the channel is, from the address it reports. -/
def AuoCh.offset (context : AuoCh) (dst : ℕ) : ℕ := (dst+2^32-context.head) % 2^32

/-- The `memset` calls of `_auo_recv`. -/
def clearPlayed (rb : Mringbuffer) (ar : ℕ) : ℕ → UInt8 :=
  if rb.readIndex ≥ rb.writeIndex then
    if ar > rb.readIndex then fill rb.bufferPtr rb.readIndex (ar-rb.readIndex) 0
    else if ar ≤ rb.writeIndex then
      fill (fill rb.bufferPtr rb.readIndex (rb.bufferSize-rb.readIndex) 0) 0 ar 0
    else fill rb.bufferPtr 0 rb.bufferSize 0
  else if ar > rb.readIndex ∧ ar ≤ rb.writeIndex then
    fill rb.bufferPtr rb.readIndex (ar-rb.readIndex) 0
  else fill rb.bufferPtr 0 rb.bufferSize 0

/-- `_auo_recv` for the address in the source register of the channel. The callback is called
without a check if nothing was taken. -/
def auoRecv (context : AuoCh) (dst : ℕ) : AuoCh × Option AuoEvent :=
  let ar := context.offset dst
  let r := mringbufferGetIndex
    { context.ringbuffer with bufferPtr := clearPlayed context.ringbuffer ar } ar
  let event :=
    if r.2 = 0 ∨ 2^31 ≤ r.2 then some .writeBufferEmpty
    else if context.callback then some .nodeWriteComplete
    else none
  ({ context with ringbuffer := r.1 }, event)

/-- Taking bytes does not change the buffer. -/
theorem get_bufferPtr (rb : Mringbuffer) (ptr : Bool) (length : ℕ) (removeCache : Bool) :
    (mringbufferGetInvalidCache rb ptr length removeCache).rb.bufferPtr = rb.bufferPtr := by
  unfold mringbufferGetInvalidCache
  by_cases hempty : mringbufferDataLen rb = 0
  · rw [if_pos hempty]
  rw [if_neg hempty]
  generalize (if mringbufferDataLen rb < length then mringbufferDataLen rb else length) = length
  by_cases hfirst : length < rb.bufferSize-rb.readIndex
  · rw [if_pos hfirst]
  · rw [if_neg hfirst]

theorem getIndex_bufferPtr (rb : Mringbuffer) (i : ℕ) :
    (mringbufferGetIndex rb i).1.bufferPtr = rb.bufferPtr := by
  have hget : ∀ getSize, (getSizeBytes rb getSize).1.bufferPtr = rb.bufferPtr := by
    intro getSize
    unfold getSizeBytes
    split_ifs
    · rfl
    · exact get_bufferPtr rb false getSize false
  unfold mringbufferGetIndex
  split_ifs
  · rfl
  · exact hget _
  · exact hget _
  · rfl
  · exact hget _
  · rfl

/-- How far a position is behind the read index, around the buffer. -/
def Mringbuffer.ahead (rb : Mringbuffer) (i : ℕ) : ℕ := (i+rb.bufferSize-rb.readIndex) % rb.bufferSize

variable {rb : Mringbuffer}

theorem ahead_eq {i : ℕ} (hread : rb.readIndex < rb.bufferSize) (hi : i < rb.bufferSize) :
    rb.ahead i = if rb.readIndex ≤ i then i-rb.readIndex else i+rb.bufferSize-rb.readIndex := by
  rw [Mringbuffer.ahead]
  split_ifs with hle
  · rw [Nat.mod_eq_sub_mod (by omega), Nat.mod_eq_of_lt (by omega)]
    omega
  · exact Nat.mod_eq_of_lt (by omega)

/-- The number of queued bytes from the indices. -/
theorem dataLen_eq (rb : Mringbuffer) :
    (rb.readIndex < rb.writeIndex → mringbufferDataLen rb = rb.writeIndex-rb.readIndex) ∧
      (rb.writeIndex < rb.readIndex →
        mringbufferDataLen rb = rb.bufferSize-(rb.readIndex-rb.writeIndex)) := by
  unfold mringbufferDataLen mringbufferStatus
  constructor
  · intro hlt
    rw [if_neg (by omega)]
    exact if_pos hlt
  · intro hgt
    rw [if_neg (by omega)]
    exact if_neg (by omega)

/-- If the channel moved, within what is queued, then exactly what it played is cleared. -/
theorem clearPlayed_moved {ar : ℕ} (hread : rb.readIndex < rb.bufferSize)
    (hwrite : rb.writeIndex < rb.bufferSize) (har : ar < rb.bufferSize)
    (hplayed : rb.ahead ar ≤ mringbufferDataLen rb) (hmoved : ar ≠ rb.readIndex) {i : ℕ}
    (hi : i < rb.bufferSize) :
    clearPlayed rb ar i = if rb.ahead i < rb.ahead ar then 0 else rb.bufferPtr i := by
  rcases dataLen_eq rb with ⟨hlow, hhigh⟩
  rw [ahead_eq hread har] at hplayed ⊢
  rw [ahead_eq hread hi]
  rcases Nat.lt_or_gt_of_ne hmoved with hbehind | hbeyond
  · rw [if_neg (not_le.mpr hbehind)] at hplayed ⊢
    have hcleared : clearPlayed rb ar = fill
        (fill rb.bufferPtr rb.readIndex (rb.bufferSize-rb.readIndex) 0) 0 ar 0 := by
      rw [clearPlayed]
      split_ifs <;> first | rfl | omega
    rw [hcleared]
    unfold fill
    split_ifs <;> first | rfl | omega
  · rw [if_pos hbeyond.le] at hplayed ⊢
    have hcleared : clearPlayed rb ar = fill rb.bufferPtr rb.readIndex (ar-rb.readIndex) 0 := by
      rw [clearPlayed]
      split_ifs <;> first | rfl | omega
    rw [hcleared, fill]
    split_ifs <;> first | rfl | omega

/-- If the channel did not move the whole buffer is cleared. -/
theorem clearPlayed_unmoved (hread : rb.readIndex < rb.bufferSize) {i : ℕ}
    (hi : i < rb.bufferSize) : clearPlayed rb rb.readIndex i = 0 := by
  have hall : fill rb.bufferPtr 0 rb.bufferSize 0 i = 0 := fill_inside (by omega)
  have hparts : fill (fill rb.bufferPtr rb.readIndex (rb.bufferSize-rb.readIndex) 0) 0 rb.readIndex
      0 i = 0 := by
    unfold fill
    split_ifs <;> first | rfl | omega
  unfold clearPlayed
  split_ifs
  · omega
  · exact hparts
  · exact hall
  · omega
  · exact hall

/-- The interrupt handler clears exactly the bytes that were played if and only if the channel
moved or the buffer is silent already. -/
theorem auoRecv_clears_played_iff (context : AuoCh) (dst : ℕ)
    (hread : context.ringbuffer.readIndex < context.ringbuffer.bufferSize)
    (hwrite : context.ringbuffer.writeIndex < context.ringbuffer.bufferSize)
    (har : context.offset dst < context.ringbuffer.bufferSize)
    (hplayed : context.ringbuffer.ahead (context.offset dst) ≤
      mringbufferDataLen context.ringbuffer) :
    (∀ i < context.ringbuffer.bufferSize, (auoRecv context dst).1.ringbuffer.bufferPtr i =
        if context.ringbuffer.ahead i < context.ringbuffer.ahead (context.offset dst) then 0
        else context.ringbuffer.bufferPtr i) ↔
      context.offset dst ≠ context.ringbuffer.readIndex ∨
        ∀ i < context.ringbuffer.bufferSize, context.ringbuffer.bufferPtr i = 0 := by
  have hptr : (auoRecv context dst).1.ringbuffer.bufferPtr =
      clearPlayed context.ringbuffer (context.offset dst) := getIndex_bufferPtr ..
  rw [hptr]
  by_cases hmoved : context.offset dst = context.ringbuffer.readIndex
  · have hzero : context.ringbuffer.ahead (context.offset dst) = 0 := by
      rw [ahead_eq hread har, if_pos (le_of_eq hmoved.symm)]
      omega
    rw [or_iff_right (not_not_intro hmoved)]
    refine forall_congr' fun i => forall_congr' fun hi => ?_
    rw [hzero, if_neg (Nat.not_lt_zero _), hmoved, clearPlayed_unmoved hread hi, eq_comm]
  · refine iff_of_true (fun i hi => ?_) (.inl hmoved)
    exact clearPlayed_moved hread hwrite har hplayed hmoved hi

/-- A ring of four bytes with three of them queued from index 2 on. -/
def sampleOutput : AuoCh where
  ringbuffer := ⟨fun i => UInt8.ofNat (i+1), false, 2, true, 1, 4⟩
  head := 0x1000
  perNodeSize := 2
  maxcount := 2
  callback := true

/-- Three bytes were played, across the end of the buffer. -/
theorem auoRecv_clears_played_wrapped :
    sampleOutput.ringbuffer.ahead (sampleOutput.offset 0x1001) = 3 ∧
      ∀ i < 4, (auoRecv sampleOutput 0x1001).1.ringbuffer.bufferPtr i =
        if sampleOutput.ringbuffer.ahead i < 3 then 0 else sampleOutput.ringbuffer.bufferPtr i :=
  ⟨by decide, (auoRecv_clears_played_iff sampleOutput 0x1001 (by decide) (by decide) (by decide)
    (by decide)).mpr (.inl (by decide))⟩

/-- Nothing was played, and four queued bytes are lost. -/
theorem auoRecv_clears_unplayed : sampleOutput.ringbuffer.ahead (sampleOutput.offset 0x1002) = 0 ∧
    ¬∀ i < 4, (auoRecv sampleOutput 0x1002).1.ringbuffer.bufferPtr i =
      if sampleOutput.ringbuffer.ahead i < sampleOutput.ringbuffer.ahead
        (sampleOutput.offset 0x1002) then 0 else sampleOutput.ringbuffer.bufferPtr i := by
  decide

end Interrupt

section Format

/-- `auo_ringbuff_format`; `fmtBuf` says whether `msp_malloc` succeeds. -/
def auoRingbuffFormat (context : AuoCh) (fmtBuf : Bool) : AuoCh × ℤ :=
  let nodeSize := context.perNodeSize
  let dmaNodeNum := context.maxcount
  let fmtSize := mringbufferDataLen context.ringbuffer
  if fmtBuf = false then (context, -1)
  else
    let got := mringbufferGet context.ringbuffer true fmtSize
    let rb := mringbufferReset got.1
    let mvLen := fmtSize/nodeSize*nodeSize
    let rb :=
      if mvLen > 0 then
        let rb := (mringbufferPut rb (some (got.2.2.drop (fmtSize % nodeSize))) mvLen).1
        { rb with bufferPtr := fill rb.bufferPtr mvLen (nodeSize*dmaNodeNum-mvLen) 0 }
      else { rb with bufferPtr := fill rb.bufferPtr 0 (nodeSize*dmaNodeNum) 0 }
    ({ context with ringbuffer := rb }, 0)

variable {n : ℕ} {rb : Mringbuffer} {q : Fifo}

/-- Draining a ring and resetting it leaves an empty ring over the same bytes. -/
theorem Holds.reset (h : Holds n rb q) (length : ℕ) :
    mringbufferReset (mringbufferGet rb true length).1 = .empty rb.bufferPtr n := by
  have hptr := get_bufferPtr rb true length false
  have hsize := (h.get true length false).2.2.size
  show (⟨(mringbufferGetInvalidCache rb true length false).rb.bufferPtr, false, 0, false, 0,
    (mringbufferGetInvalidCache rb true length false).rb.bufferSize⟩ : Mringbuffer) = _
  rw [hptr, hsize]
  rfl

/-- The free space of a ring from index 0 on is overwritten. -/
theorem Holds.clear (h : Holds n rb q) (hfirst : rb.readIndex = 0) (len : ℕ)
    (hlen : n ≤ q.queue.length+len) :
    Holds n { rb with bufferPtr := fill rb.bufferPtr q.queue.length len 0 }
        { q with spare := List.replicate q.spare.length 0 } ∧
      ∀ i < q.queue.length+len, fill rb.bufferPtr q.queue.length len 0 i = q.queue.getD i 0 := by
  have htotal := h.total
  have hqueue : window rb.bufferPtr n 0 q.queue.length = q.queue := by
    have hfront := h.front (le_refl q.queue.length)
    rwa [hfirst, take_length] at hfront
  have hbytes : ∀ i < q.queue.length+len,
      fill rb.bufferPtr q.queue.length len 0 i = q.queue.getD i 0 := by
    intro i hi
    rcases lt_or_ge i q.queue.length with hin | hout
    · have hcell := window_getElem? rb.bufferPtr n 0 hin
      rw [hqueue, zero_add, Nat.mod_eq_of_lt (by omega), getElem?_eq_getElem hin] at hcell
      rw [fill_outside (by omega), getD_eq_getElem _ _ hin]
      exact (Option.some.inj hcell).symm
    · rw [fill_inside ⟨hout, hi⟩, getD_eq_default _ _ hout]
  have hkept : window (fill rb.bufferPtr q.queue.length len 0) n 0 q.queue.length = q.queue := by
    refine (window_congr fun i hi => fill_outside ?_).trans hqueue
    rw [Nat.mod_eq_of_lt (by omega)]
    omega
  have hzero : window (fill rb.bufferPtr q.queue.length len 0) n (0+q.queue.length)
      q.spare.length = List.replicate q.spare.length 0 := by
    refine List.eq_replicate_iff.mpr ⟨window_length .., fun b hb => ?_⟩
    rcases List.mem_map.mp hb with ⟨i, hi, rfl⟩
    have hi := List.mem_range.mp hi
    rw [Nat.mod_eq_of_lt (by omega)]
    exact fill_inside (by omega)
  refine ⟨⟨h.size, h.head, h.inside, ?_, h.tail⟩, hbytes⟩
  rw [hfirst, ← hzero]
  nth_rewrite 2 [← hkept]
  rw [← window_add, htotal]

/-- What is put in an empty ring is queued from index 0 on. -/
theorem put_empty (hn : 0 < n) (pool : ℕ → UInt8) {data : List UInt8} (hdata : data.length ≤ n) :
    ∃ spare, Holds n (mringbufferPut (.empty pool n) (some data) data.length).1 ⟨data, spare, 0⟩ := by
  have haccepted : (Fifo.empty pool n).accepted (.bytes data) = data :=
    take_of_length_le (by rw [Fifo.empty, window_length]; exact hdata)
  have hput := ((Holds.empty hn pool).put (.bytes data) false).2
  rw [haccepted] at hput
  exact ⟨_, hput⟩

/-- Resuming keeps the newest whole periods: the ring holds them from index 0 on, and the rest
of the DMA buffer is zero. -/
theorem auoRingbuffFormat_keeps_newest (context : AuoCh) (q : Fifo)
    (hholds : Holds context.ringbuffer.bufferSize context.ringbuffer q)
    (hpool : context.ringbuffer.bufferSize ≤ context.perNodeSize*context.maxcount)
    (hqueued : 1 ≤ q.queue.length) :
    let kept := q.queue.drop
      (q.queue.length-q.queue.length/context.perNodeSize*context.perNodeSize)
    let r := auoRingbuffFormat context true
    r.2 = 0 ∧
      (∃ spare, Holds context.ringbuffer.bufferSize r.1.ringbuffer ⟨kept, spare, 0⟩) ∧
      ∀ i < context.perNodeSize*context.maxcount, r.1.ringbuffer.bufferPtr i = kept.getD i 0 := by
  intro kept r
  have htotal := hholds.total
  have hget : (mringbufferGet context.ringbuffer true q.queue.length).2.2 = q.queue :=
    (hholds.get true q.queue.length false).2.1.trans take_length
  have hmod : q.queue.length % context.perNodeSize =
      q.queue.length-q.queue.length/context.perNodeSize*context.perNodeSize := by
    rw [Nat.mod_eq_sub, mul_comm]
  have hle : q.queue.length/context.perNodeSize*context.perNodeSize ≤ q.queue.length :=
    Nat.div_mul_le_self ..
  have hkept : kept.length = q.queue.length/context.perNodeSize*context.perNodeSize := by
    rw [length_drop]
    omega
  have hn : 0 < context.ringbuffer.bufferSize := by omega
  have hr : r = ({ context with ringbuffer :=
      if kept.length > 0 then
        let rb := (mringbufferPut (.empty context.ringbuffer.bufferPtr context.ringbuffer.bufferSize)
          (some kept) kept.length).1
        { rb with
          bufferPtr := fill rb.bufferPtr kept.length
            (context.perNodeSize*context.maxcount-kept.length) 0 }
      else
        { Mringbuffer.empty context.ringbuffer.bufferPtr context.ringbuffer.bufferSize with
          bufferPtr := fill context.ringbuffer.bufferPtr 0
            (context.perNodeSize*context.maxcount) 0 } }, 0) := by
    simp only [r, auoRingbuffFormat, hholds.dataLen, hholds.reset, hget, hmod, hkept]
    rfl
  rw [hr]
  refine ⟨rfl, ?_⟩
  dsimp only
  by_cases hmove : kept.length > 0
  · rw [if_pos hmove]
    rcases put_empty hn context.ringbuffer.bufferPtr (by omega : kept.length ≤ _) with ⟨spare, hput⟩
    have hclear := hput.clear hput.head.symm (context.perNodeSize*context.maxcount-kept.length)
      (by dsimp only; omega)
    dsimp only at hclear
    rw [Nat.add_sub_cancel' (by omega)] at hclear
    exact ⟨⟨_, hclear.1⟩, hclear.2⟩
  · have hnil : kept = [] := eq_nil_of_length_eq_zero (by omega)
    have hclear := (Holds.empty hn context.ringbuffer.bufferPtr).clear rfl
      (context.perNodeSize*context.maxcount) (hpool.trans (Nat.le_add_left ..))
    rw [hnil]
    dsimp only [Fifo.empty] at hclear
    rw [length_nil, zero_add] at hclear
    exact ⟨⟨_, hclear.1⟩, hclear.2⟩

/-- Three queued bytes around the end of the buffer, and periods of two. -/
theorem auoRingbuffFormat_keeps_newest_two :
    (auoRingbuffFormat sampleOutput true).2 = 0 ∧
      (∃ spare, Holds 4 (auoRingbuffFormat sampleOutput true).1.ringbuffer ⟨[4, 1], spare, 0⟩) ∧
      ∀ i < 4, (auoRingbuffFormat sampleOutput true).1.ringbuffer.bufferPtr i =
        [4, 1].getD i 0 :=
  auoRingbuffFormat_keeps_newest sampleOutput ⟨[3, 4, 1], [2], 2⟩
    ⟨rfl, rfl, by decide, rfl, .inr ⟨by decide, by decide, rfl⟩⟩ (by decide) (by decide)

end Format

end PineVoice.AudioRing
