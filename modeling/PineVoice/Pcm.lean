import Mathlib.Algebra.Group.Int.Defs
import Mathlib.Algebra.Group.Nat.Defs
import Mathlib.Data.Int.Notation
import Mathlib.Data.List.Basic

/-!
# Writing to a playback stream

`msp_pcm_writei` offers its buffer to the device until nothing is left, and waits for an event in
between. What it returns is computed from the result of the last write alone. A run is given by
the answers of the device in order; when they come to an end the function is still waiting.
-/

namespace PineVoice.Minialsa

open List

/-- `hw_params->access`. -/
inductive Access where
  | rwInterleaved
  | rwNoninterleaved
deriving DecidableEq

/-- `msp_pcm_t`, as far as a write uses it. -/
structure Pcm where
  /-- `stream` is `MSP_PCM_STREAM_PLAYBACK`. -/
  playback : Bool
  /-- `hw_params->access`. -/
  access : Access
  /-- `hw_params->channels`. -/
  channels : ℕ
  /-- `hw_params->format`: the bits of a sample. -/
  format : ℕ

/-- The bytes of a frame. -/
def Pcm.frameBytes (pcm : Pcm) : ℕ := pcm.channels*pcm.format/8

/-- `msp_pcm_frames_to_bytes`, a 32-bit product. -/
def mspPcmFramesToBytes (pcm : Pcm) (frames : ℤ) : ℤ := (frames*pcm.frameBytes).bmod (2^32)

/-- `msp_pcm_bytes_to_frames`. -/
def mspPcmBytesToFrames (pcm : Pcm) (bytes : ℤ) : ℤ := bytes.tdiv pcm.frameBytes

/-- What a write to the device comes to. -/
structure Answer where
  /-- The result of `ops->write`: the bytes that were taken. -/
  ret : ℤ
  /-- The event that is waited for comes with `PCM_EVT_XRUN`. -/
  xrun : Bool

/-- The loop of `msp_pcm_writei`: the result and what the device has received. -/
def writeLoop (buffer : List UInt8) :
    List Answer → ℤ → ℤ → ℤ → List UInt8 → Option (ℤ × List UInt8)
  | [], _, wSize, ret, received => if wSize = 0 then some (ret, received) else none
  | answer :: answers, send, wSize, ret, received =>
    if wSize = 0 then some (ret, received)
    else
      let received := received ++ (buffer.drop send.toNat).take answer.ret.toNat
      if answer.xrun then some (-32, received)
      else writeLoop buffer answers (send+answer.ret) (wSize-answer.ret) answer.ret received

/-- `msp_pcm_writei`. -/
def mspPcmWritei (pcm : Pcm) (buffer : List UInt8) (size : ℤ) (answers : List Answer) :
    Option (ℤ × List UInt8) :=
  if pcm.playback ∧ pcm.access = .rwInterleaved then
    (writeLoop buffer answers 0 (mspPcmFramesToBytes pcm size) (-1) []).map fun r =>
      (if r.1 < 0 then r.1 else mspPcmBytesToFrames pcm r.1, r.2)
  else some (22, [])

/-- The device takes whole frames of what it is offered and reports no underrun. -/
def Takes (frame : ℕ) : ℤ → List Answer → Prop
  | _, [] => True
  | wSize, answer :: answers =>
    wSize = 0 ∨ (answer.xrun = false ∧ ∃ k : ℕ, answer.ret = k*frame ∧
      (answer.ret = 0 ∨ answer.ret ≤ wSize)) ∧ Takes frame (wSize-answer.ret) answers

/-- The first write that takes anything takes `bytes`. -/
def FirstTakes (bytes : ℤ) : List Answer → Prop
  | [] => False
  | answer :: answers => if answer.ret = 0 then FirstTakes bytes answers else answer.ret = bytes

section Loop

variable {buffer : List UInt8} {frame : ℕ}

theorem writeLoop_zero (answers : List Answer) (send ret : ℤ) (received : List UInt8) :
    writeLoop buffer answers send 0 ret received = some (ret, received) := by
  cases answers <;> exact if_pos rfl

/-- A loop that returns has passed on the whole rest of the buffer, and its result is what the last
write took. -/
theorem writeLoop_some : ∀ {answers : List Answer} {send w : ℕ} {ret : ℤ}
    {received : List UInt8} {r : ℤ × List UInt8}, 0 < w → Takes frame w answers →
    writeLoop buffer answers send w ret received = some r →
    r.2 = received ++ (buffer.drop send).take w ∧ (∃ k : ℕ, r.1 = k*frame) ∧ 0 < r.1 ∧ r.1 ≤ w ∧
      (r.1 = w ↔ FirstTakes w answers)
  | [], send, w, ret, received, r, hw, _, h => by
    rw [writeLoop, if_neg (by omega)] at h
    cases h
  | answer :: answers, send, w, ret, received, r, hw, htakes, h => by
    rw [writeLoop, if_neg (by omega)] at h
    dsimp only at h
    rcases htakes with hzero | ⟨⟨hxrun, k, hk, hle⟩, hrest⟩
    · omega
    rw [hxrun, if_neg Bool.false_ne_true] at h
    have hnonneg : 0 ≤ answer.ret := by
      rw [hk]
      exact Int.natCast_nonneg (k*frame)
    rcases Int.eq_ofNat_of_zero_le hnonneg with ⟨t, ht⟩
    rw [ht] at h hrest hle
    rw [FirstTakes, ht]
    by_cases hzero : t = 0
    · subst hzero
      rw [Int.toNat_natCast, take_zero, append_nil] at h
      exact writeLoop_some hw hrest h
    have hpos : ¬(t : ℤ) = 0 := by omega
    rw [if_neg hpos]
    by_cases hall : t = w
    · subst hall
      rw [Int.sub_self, writeLoop_zero] at h
      cases h
      refine ⟨rfl, ⟨k, ht ▸ hk⟩, ?_, Int.le_refl _, Iff.rfl⟩
      omega
    · have hlt : t < w := by omega
      have hsub : (w : ℤ)-t = (w-t : ℕ) := (Int.ofNat_sub (Nat.le_of_lt hlt)).symm
      rw [hsub] at h hrest
      rcases writeLoop_some (Nat.sub_pos_of_lt hlt) hrest h with ⟨hbytes, hwhole, hr, hle', -⟩
      refine ⟨?_, hwhole, hr, by omega, by omega⟩
      have hdrop : (buffer.drop send).take w =
          (buffer.drop send).take t ++ (buffer.drop (send+t)).take (w-t) := by
        rw [← drop_drop, ← take_add, Nat.add_sub_cancel' (Nat.le_of_lt hlt)]
      rw [hbytes, hdrop, ← append_assoc]
      rfl

/-- A device that is offered less than nothing takes nothing, so the loop does not return. -/
theorem writeLoop_neg : ∀ {answers : List Answer} {send wSize ret : ℤ} {received : List UInt8},
    wSize < 0 → Takes frame wSize answers →
    writeLoop buffer answers send wSize ret received = none
  | [], _, wSize, _, _, hneg, _ => if_neg (Int.ne_of_lt hneg)
  | answer :: answers, send, wSize, ret, received, hneg, htakes => by
    rw [writeLoop, if_neg (Int.ne_of_lt hneg)]
    rcases htakes with hzero | ⟨⟨hxrun, k, hk, hle⟩, hrest⟩
    · omega
    have hnonneg : 0 ≤ answer.ret := by
      rw [hk]
      exact Int.natCast_nonneg (k*frame)
    rw [hxrun]
    exact writeLoop_neg (by omega) hrest

end Loop

theorem framesToBytes_fits {pcm : Pcm} {n : ℕ} (h : n*pcm.frameBytes < 2^31) :
    mspPcmFramesToBytes pcm n = (n*pcm.frameBytes : ℕ) := by
  rw [mspPcmFramesToBytes]
  unfold Int.bmod
  dsimp only
  split_ifs <;> omega

theorem framesToBytes_lt (pcm : Pcm) (n : ℤ) : mspPcmFramesToBytes pcm n < 2^31 := by
  rw [mspPcmFramesToBytes]
  unfold Int.bmod
  dsimp only
  split_ifs <;> omega

/-- For a playback stream, `n` frames and a device that takes whole frames of what it is offered:
when `msp_pcm_writei` returns, the device has received the buffer and the result is `n` if and
only if the access is interleaved, the size in bytes is a positive `int`, and the first write that
takes anything takes everything. -/
theorem mspPcmWritei_plays_iff {pcm : Pcm} (hplayback : pcm.playback = true)
    (hframe : 0 < pcm.frameBytes) {n : ℕ} (hn : 1 ≤ n) {buffer : List UInt8}
    (hbuffer : buffer.length = n*pcm.frameBytes) {answers : List Answer}
    (htakes : Takes pcm.frameBytes (mspPcmFramesToBytes pcm n) answers) {ret : ℤ}
    {received : List UInt8} (hret : mspPcmWritei pcm buffer n answers = some (ret, received)) :
    received = buffer ∧ ret = n ↔
      pcm.access = .rwInterleaved ∧ n*pcm.frameBytes < 2^31 ∧
        FirstTakes (n*pcm.frameBytes : ℕ) answers := by
  have hpos : 0 < n*pcm.frameBytes := Nat.mul_pos hn hframe
  unfold mspPcmWritei at hret
  by_cases haccess : pcm.access = .rwInterleaved
  · rw [if_pos ⟨hplayback, haccess⟩] at hret
    rcases Option.map_eq_some_iff.mp hret with ⟨r, hloop, hr⟩
    cases hr
    rw [and_iff_right haccess]
    by_cases hfits : n*pcm.frameBytes < 2^31
    · rw [framesToBytes_fits hfits] at hloop htakes
      rcases writeLoop_some hpos htakes hloop with ⟨hbytes, ⟨k, hk⟩, hr, -, hlast⟩
      have hall : r.2 = buffer := by
        rw [hbytes, ← hbuffer]
        exact take_length
      have hframes : mspPcmBytesToFrames pcm r.1 = k := by
        rw [mspPcmBytesToFrames, hk]
        exact Int.mul_tdiv_cancel _ (by omega)
      rw [if_neg (by omega), hframes, and_iff_right hall, and_iff_right hfits, ← hlast, hk]
      rw [Int.natCast_mul, Int.mul_eq_mul_right_iff (by omega)]
    · refine iff_of_false (fun h => ?_) fun h => hfits h.1
      have hshort : r.2.length < n*pcm.frameBytes := by
        rcases Int.lt_trichotomy (mspPcmFramesToBytes pcm n) 0 with hneg | hzero | hgt
        · rw [writeLoop_neg hneg htakes] at hloop
          cases hloop
        · rw [hzero, writeLoop_zero] at hloop
          cases hloop
          exact hpos
        · rcases Int.eq_ofNat_of_zero_le (Int.le_of_lt hgt) with ⟨w, hw⟩
          have hwlt := framesToBytes_lt pcm n
          rw [hw] at hloop htakes hgt hwlt
          rcases writeLoop_some (by omega) htakes hloop with ⟨hbytes, -⟩
          have hlen : r.2.length ≤ w := by
            rw [hbytes]
            exact length_take_le ..
          omega
      rw [h.1, hbuffer] at hshort
      exact Nat.lt_irrefl _ hshort
  · rw [if_neg fun h => haccess h.2] at hret
    cases hret
    refine iff_of_false (fun h => ?_) fun h => haccess h.1
    rw [← h.1] at hbuffer
    exact absurd hbuffer (Nat.ne_of_lt hpos)

/-- Two channels of 16 bits. -/
def samplePcm : Pcm := ⟨true, .rwInterleaved, 2, 16⟩

/-- The device takes nothing at first and then both frames. -/
theorem mspPcmWritei_plays_sample :
    (([1, 2, 3, 4, 5, 6, 7, 8] : List UInt8) = [1, 2, 3, 4, 5, 6, 7, 8] ∧ (2 : ℤ) = (2 : ℕ)) ↔
      samplePcm.access = .rwInterleaved ∧ 2*samplePcm.frameBytes < 2^31 ∧
        FirstTakes (2*samplePcm.frameBytes : ℕ) [⟨0, false⟩, ⟨8, false⟩] := by
  have hret : mspPcmWritei samplePcm [1, 2, 3, 4, 5, 6, 7, 8] (2 : ℕ) [⟨0, false⟩, ⟨8, false⟩] =
      some (2, [1, 2, 3, 4, 5, 6, 7, 8]) := by decide +kernel
  have htakes : Takes samplePcm.frameBytes (mspPcmFramesToBytes samplePcm (2 : ℕ))
      [⟨0, false⟩, ⟨8, false⟩] :=
    .inr ⟨⟨rfl, 0, by decide, .inl rfl⟩,
      .inr ⟨⟨rfl, 2, by decide, .inr (by decide +kernel)⟩, trivial⟩⟩
  exact mspPcmWritei_plays_iff rfl (by decide) (by decide) (by decide) htakes hret

/-- The device takes the two frames one by one: it has received both, and the result is one. -/
theorem mspPcmWritei_returns_last :
    Takes samplePcm.frameBytes (mspPcmFramesToBytes samplePcm (2 : ℕ)) [⟨4, false⟩, ⟨4, false⟩] ∧
      mspPcmWritei samplePcm [1, 2, 3, 4, 5, 6, 7, 8] (2 : ℕ) [⟨4, false⟩, ⟨4, false⟩] =
        some (1, [1, 2, 3, 4, 5, 6, 7, 8]) := by
  constructor
  · exact .inr ⟨⟨rfl, 1, by decide, .inr (by decide +kernel)⟩,
      .inr ⟨⟨rfl, 1, by decide, .inr (by decide +kernel)⟩, trivial⟩⟩
  · decide +kernel

end PineVoice.Minialsa
