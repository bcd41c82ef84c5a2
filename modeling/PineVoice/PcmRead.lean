import PineVoice.Circular
import PineVoice.Pcm

/-!
# Reading interleaved frames from a capture stream

The device delivers the samples channel by channel. `msp_pcm_readi` reads them to the caller's
buffer and `pcm_access` puts them there frame by frame, from a copy and with one cursor for
every channel.
-/

namespace PineVoice.Minialsa

open Function Circular

/-- The state of the copy loop of `pcm_access`. -/
structure AccessLoop where
  /-- The caller's buffer. -/
  dec : ℕ → UInt8
  /-- `offset`: the next byte of the buffer. -/
  offset : ℕ
  /-- The `offset` of every channel. -/
  cursor : ℕ → ℕ

/-- One sample is copied: the body of the inner loop. -/
def accessSample (recv : ℕ → UInt8) (channelSize frameSize : ℕ) (s : AccessLoop) (j : ℕ) :
    AccessLoop :=
  ⟨copy s.dec s.offset (load recv (channelSize*j+s.cursor j) frameSize), s.offset+frameSize,
    update s.cursor j (s.cursor j+frameSize)⟩

/-- The outer loop, with a bound on its iterations. -/
def accessLoop (recv : ℕ → UInt8) (channels channelSize frameSize bytes : ℕ) :
    ℕ → AccessLoop → Option AccessLoop
  | 0, _ => none
  | fuel+1, s =>
    if s.offset < bytes then
      accessLoop recv channels channelSize frameSize bytes fuel
        ((List.range channels).foldl (accessSample recv channelSize frameSize) s)
    else some s

/-- `pcm_access`: the buffer afterwards. The memory of the copy holds `heap` behind it. -/
def pcmAccess (fuel : ℕ) (pcm : Pcm) (heap buffer : ℕ → UInt8) (bytes : ℕ) : Option (ℕ → UInt8) :=
  let recv := copy heap 0 (load buffer 0 bytes)
  (accessLoop recv pcm.channels (bytes/pcm.channels) (pcm.format/8) bytes fuel
    ⟨buffer, 0, fun _ => 0⟩).map AccessLoop.dec

/-- `msp_pcm_readi`: the result and the caller's buffer. `read` is the result of `ops->read` and
`buffer` what the buffer holds after it. -/
def mspPcmReadi (fuel : ℕ) (pcm : Pcm) (heap buffer : ℕ → UInt8) (read : ℤ) :
    Option (ℤ × (ℕ → UInt8)) :=
  if pcm.playback = false ∧ pcm.access = .rwInterleaved then
    if read ≤ 0 then some (0, buffer)
    else
      (pcmAccess fuel pcm heap buffer read.toNat).map fun dec => (mspPcmBytesToFrames pcm read, dec)
  else some (22, buffer)

section Copy

variable {recv : ℕ → UInt8} {c w f : ℕ}

/-- All frames before `i` and the first `k` samples of frame `i` are in place. -/
structure Copied (recv : ℕ → UInt8) (c w f i k : ℕ) (s : AccessLoop) : Prop where
  /-- The next byte of the buffer. -/
  offset : s.offset = (i*c+k)*w
  /-- The next byte of every channel. -/
  cursor : ∀ j < c, s.cursor j = (if j < k then i+1 else i)*w
  /-- The samples. -/
  samples : ∀ i' j', j' < c → i' < i ∨ i' = i ∧ j' < k → ∀ b < w,
    s.dec ((i'*c+j')*w+b) = recv ((j'*f+i')*w+b)

/-- One more sample. -/
theorem Copied.sample {i k : ℕ} {s : AccessLoop} (h : Copied recv c w f i k s) (hk : k < c) :
    Copied recv c w f i (k+1) (accessSample recv (w*f) w s k) := by
  have hcursor : s.cursor k = i*w := by rw [h.cursor k hk, if_neg (lt_irrefl k)]
  refine ⟨?_, fun j hlt => ?_, fun i' j' hj hdone b hb => ?_⟩
  · show s.offset+w = (i*c+(k+1))*w
    rw [h.offset, ← add_assoc, add_mul _ 1, one_mul]
  · show update s.cursor k (s.cursor k+w) j = _
    by_cases hj : j = k
    · rw [hj, update_self, hcursor, if_pos (Nat.lt_succ_self k), add_mul, one_mul]
    · rw [update_of_ne hj, h.cursor j hlt]
      simp only [show j < k ↔ j < k+1 by omega]
  · show copy s.dec s.offset (load recv (w*f*k+s.cursor k) w) ((i'*c+j')*w+b) = _
    by_cases hlast : i' = i ∧ j' = k
    · rw [hlast.1, hlast.2, h.offset, copy_load _ _ _ _ hb, hcursor, add_mul, mul_comm w f,
        mul_right_comm f w k, mul_comm f k]
    · have hbefore : i'*c+j' < i*c+k := by
        rcases hdone with hlt | ⟨rfl, hlt⟩
        · have hmul := Nat.mul_le_mul_right c hlt
          rw [Nat.succ_mul] at hmul
          omega
        · omega
      have hmul := Nat.mul_le_mul_right w hbefore
      rw [Nat.succ_mul] at hmul
      rw [h.offset, copy_outside (.inl (by omega))]
      refine h.samples i' j' hj ?_ b hb
      omega

/-- A whole frame. -/
theorem Copied.frame {i : ℕ} {s : AccessLoop} (h : Copied recv c w f i 0 s) :
    Copied recv c w f (i+1) 0 ((List.range c).foldl (accessSample recv (w*f) w) s) := by
  have hall : ∀ k ≤ c,
      Copied recv c w f i k ((List.range k).foldl (accessSample recv (w*f) w) s) := by
    intro k
    induction k with
    | zero => exact fun _ => h
    | succ k ih =>
      intro hk
      rw [List.range_succ, List.foldl_append]
      exact (ih (Nat.le_of_succ_le hk)).sample hk
  have hdone := hall c (le_refl c)
  refine ⟨?_, fun j hj => ?_, fun i' j' hj hlt b hb => ?_⟩
  · rw [hdone.offset, add_zero, Nat.succ_mul]
  · rw [hdone.cursor j hj, if_pos hj, if_neg (Nat.not_lt_zero j)]
  · refine hdone.samples i' j' hj ?_ b hb
    omega

/-- The loop goes on to the last frame. -/
theorem Copied.loop (hframe : 0 < c*w) {rounds i fuel : ℕ} {s : AccessLoop}
    (h : Copied recv c w f i 0 s) (hrounds : i+rounds = f) (hfuel : rounds < fuel) :
    ∃ s', accessLoop recv c (w*f) w (c*w*f) fuel s = some s' ∧ Copied recv c w f f 0 s' := by
  have hoffset : s.offset = c*w*i := by
    rw [h.offset, add_zero, mul_comm i c, mul_right_comm]
  induction rounds generalizing i fuel s with
  | zero =>
    obtain ⟨fuel, rfl⟩ : ∃ n, fuel = n+1 := ⟨fuel-1, by omega⟩
    obtain rfl : i = f := hrounds
    rw [accessLoop, if_neg (by omega)]
    exact ⟨s, rfl, h⟩
  | succ rounds ih =>
    obtain ⟨fuel, rfl⟩ : ∃ n, fuel = n+1 := ⟨fuel-1, by omega⟩
    have hmore : s.offset < c*w*f := by
      rw [hoffset]
      exact Nat.mul_lt_mul_of_pos_left (by omega) hframe
    have hnext := h.frame
    rw [accessLoop, if_pos hmore]
    refine ih hnext (by omega) (by omega) ?_
    rw [hnext.offset, add_zero, mul_comm (i+1) c, mul_right_comm]

/-- What the device delivers channel by channel is put in the caller's buffer frame by frame. -/
theorem mspPcmReadi_transposes (heap device : ℕ → UInt8) (c w f : ℕ) (hc : 1 ≤ c) {fuel : ℕ}
    (hfuel : f < fuel) :
    ∃ ret buffer, mspPcmReadi fuel ⟨false, .rwInterleaved, c, 8*w⟩ heap device (c*w*f : ℕ) =
        some (ret, buffer) ∧
      ∀ i < f, ∀ j < c, ∀ b < w, buffer ((i*c+j)*w+b) = device ((j*f+i)*w+b) := by
  rw [mspPcmReadi, if_pos ⟨rfl, rfl⟩]
  by_cases hempty : c*w*f = 0
  · rw [hempty, if_pos (by omega)]
    refine ⟨0, device, rfl, fun i hi j hj b hb => ?_⟩
    have hpos : 0 < c*w*f := Nat.mul_pos (Nat.mul_pos hc (by omega)) (by omega)
    omega
  have hframe : 0 < c*w := Nat.pos_of_ne_zero fun hzero => hempty (by rw [hzero, Nat.zero_mul])
  have hsize : c*w*f/c = w*f := by rw [mul_assoc, Nat.mul_div_cancel_left _ hc]
  have hwidth : 8*w/8 = w := Nat.mul_div_cancel_left w (by omega)
  have hstart : Copied (copy heap 0 (load device 0 (c*w*f))) c w f 0 0 ⟨device, 0, fun _ => 0⟩ :=
    ⟨by rw [Nat.zero_mul, Nat.zero_mul],
      fun j _ => by rw [if_neg (Nat.not_lt_zero j), zero_mul], fun i' j' _ hlt => by omega⟩
  rcases hstart.loop hframe (zero_add f) hfuel with ⟨s, hloop, hdone⟩
  rw [if_neg (by omega), Int.toNat_natCast, pcmAccess]
  rw [hsize, hwidth, hloop]
  refine ⟨_, s.dec, rfl, fun i hi j hj b hb => ?_⟩
  have hin : (j*f+i)*w+b < c*w*f := by
    have hrow := Nat.mul_le_mul_right f (Nat.succ_le_of_lt hj)
    rw [Nat.succ_mul] at hrow
    have hcell := Nat.mul_le_mul_right w (by omega : j*f+i+1 ≤ c*f)
    rw [add_mul, one_mul, mul_right_comm] at hcell
    omega
  have hcopy := copy_load heap device 0 0 hin
  rw [zero_add] at hcopy
  rw [hdone.samples i j hj (.inl hi) b hb, hcopy]

/-- Two frames of two channels with samples of one byte. -/
theorem mspPcmReadi_transposes_stereo : ∃ ret buffer,
    mspPcmReadi 3 ⟨false, .rwInterleaved, 2, 8⟩ (fun _ => 0) (fun i => UInt8.ofNat i) 4 =
        some (ret, buffer) ∧
      ∀ i < 2, ∀ j < 2, ∀ b < 1, buffer ((i*2+j)*1+b) = UInt8.ofNat ((j*2+i)*1+b) :=
  mspPcmReadi_transposes (fun _ => 0) (fun i => UInt8.ofNat i) 2 1 2 (by decide) (by decide)

end Copy

end PineVoice.Minialsa
