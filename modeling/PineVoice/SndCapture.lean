import Mathlib.Data.Int.Notation
import PineVoice.Ledger

/-!
# The capture driver

`pcmc_param_set` makes five allocations. A successful call stores the codec handle with its ring
buffer, which `capture_free` frees, and the DMA handle, which nothing frees. The error paths free
the codec handle and the receive buffer, not the ring buffer.
-/

namespace PineVoice.SndCapture
open PineVoice.Ledger List

/-- A block for `csi_codec_input_t`. -/
structure Codec where
  /-- The block itself. -/
  block : ℕ
  /-- The ring buffer, null if it could not be allocated. -/
  ringBuf : Option ℕ
deriving Repr, DecidableEq

/-- `capture_t`. A handle is stored exactly in state 1. -/
structure Capture where
  /-- The block itself. -/
  block : ℕ
  /-- 1 while capturing. -/
  state : ℕ
  /-- The codec handle. -/
  hdl : Option Codec
  /-- The DMA handle. -/
  dmaHdl : Option ℕ
  hdl_isSome : state = 1 ↔ hdl.isSome

/-- An open device. -/
structure Device where
  /-- The blocks the driver allocated and freed. -/
  heap : Heap
  /-- What `pcm->hdl` refers to. -/
  capture : Capture

/-- `capture_free`. -/
def captureFree (d : Device) : Device :=
  if h : d.capture.state = 1 then
    let codec := d.capture.hdl.get (d.capture.hdl_isSome.mp h)
    { heap := (d.heap.free codec.ringBuf).free (some codec.block)
      capture :=
        { block := d.capture.block, state := 0, hdl := none, dmaHdl := d.capture.dmaHdl
          hdl_isSome := iff_of_false Nat.zero_ne_one Bool.false_ne_true } }
  else d

/-- How the steps of a call of `pcmc_param_set` end. -/
structure Outcome where
  /-- The handle can be allocated. -/
  codec : Bool
  /-- The receive buffer can be allocated. -/
  recv : Bool
  /-- The ring buffer can be allocated. -/
  ringBuf : Bool
  /-- What `csi_codec_input_open` returns. -/
  inputOpen : ℤ
  /-- What `csi_codec_input_config` returns. -/
  inputConfig : ℤ
  /-- The DMA handle can be allocated. -/
  dmaHdl : Bool
deriving Repr, DecidableEq

/-- The label `pcmc_err0`. -/
def pcmcErr0 (d : Device) (codec : ℕ) (heap : Heap) : ℤ × Device :=
  (-1, { d with heap := heap.free (some codec) })

/-- The label `pcmc_err1`. -/
def pcmcErr1 (d : Device) (codec recv : ℕ) (heap : Heap) : ℤ × Device :=
  pcmcErr0 d codec (heap.free (some recv))

/-- `pcmc_param_set` once the receive buffer is there. -/
def inputStart (d : Device) (o : Outcome) (codec recv : ℕ) (heap : Heap) : ℤ × Device :=
  let ringBuf := (heap.alloc o.ringBuf).1
  let heap := (heap.alloc o.ringBuf).2
  if o.inputOpen ≠ 0 then pcmcErr1 d codec recv heap
  else if o.inputConfig ≠ 0 then pcmcErr1 d codec recv heap
  else
    match heap.alloc o.dmaHdl with
    | (none, heap) => pcmcErr1 d codec recv heap
    | (some dmaHdl, heap) =>
      (0,
        { heap := heap
          capture :=
            { block := d.capture.block, state := 1, hdl := some ⟨codec, ringBuf⟩
              dmaHdl := some dmaHdl
              hdl_isSome := iff_of_true rfl rfl } })

/-- `pcmc_param_set`. -/
def pcmcParamSet (d : Device) (o : Outcome) : ℤ × Device :=
  let d := captureFree d
  match d.heap.alloc o.codec with
  | (none, heap) => (-1, { d with heap := heap })
  | (some codec, heap) =>
    match heap.alloc o.recv with
    | (none, heap) => pcmcErr0 d codec heap
    | (some recv, heap) => inputStart d o codec recv heap

/-- `pcmc_lpm`. -/
def pcmcLpm (d : Device) (state : ℤ) (o : Outcome) : ℤ × Device :=
  if state > 0 then (0, captureFree d) else (0, (pcmcParamSet d o).2)

/-- `pcmc_open` on a device whose functions have allocated nothing yet. A device that could not
be opened has no capture block. -/
def pcmcOpen (ok : Bool) : ℤ × Option Device :=
  match Heap.alloc ⟨0, []⟩ ok with
  | (none, _) => (-1, none)
  | (some capture, heap) =>
    (0, some
      { heap := heap
        capture :=
          { block := capture, state := 0, hdl := none, dmaHdl := none
            hdl_isSome := iff_of_false Nat.zero_ne_one Bool.false_ne_true } })

/-- `pcmc_close`. The device is gone afterwards, the heap remains. -/
def pcmcClose (d : Device) : ℤ × Heap :=
  (0, (captureFree d).heap.free (some (captureFree d).capture.block))

/-- A call on an open device. -/
inductive Call where
  /-- `pcmc_param_set`. -/
  | paramSet (o : Outcome)
  /-- `pcmc_lpm`. -/
  | lpm (state : ℤ) (o : Outcome)
deriving Repr, DecidableEq

/-- The device after a call. -/
def Device.call (d : Device) : Call → Device
  | .paramSet o => (pcmcParamSet d o).2
  | .lpm state o => (pcmcLpm d state o).2

/-- The heap when `pcmc_close` returns after `pcmc_open` and a list of calls. Without a capture
block the calls and `pcmc_close` follow a null pointer. -/
def session (ok : Bool) (calls : List Call) : Option Heap :=
  (pcmcOpen ok).2.map fun d => (pcmcClose (calls.foldl Device.call d)).2

/-- The blocks that `pcmc_close` frees. -/
def Device.owned (d : Device) : List ℕ :=
  match d.capture.hdl with
  | none => [d.capture.block]
  | some codec => codec.ringBuf.toList++[codec.block, d.capture.block]

/-- A step after the allocation of the ring buffer fails. -/
def Outcome.InputFails (o : Outcome) : Prop :=
  o.inputOpen ≠ 0 ∨ o.inputConfig ≠ 0 ∨ o.dmaHdl = false

/-- A call of `pcmc_param_set` loses no block if it fails before the ring buffer is allocated,
or fails later and the ring buffer could not be allocated either. -/
def Outcome.Releases (o : Outcome) : Prop :=
  o.codec = false ∨ o.recv = false ∨ (o.ringBuf = false ∧ o.InputFails)

instance (o : Outcome) : Decidable o.Releases := by
  unfold Outcome.Releases Outcome.InputFails
  infer_instance

/-- A call that powers down loses nothing, the others do as `pcmc_param_set` does. -/
def Call.Releases : Call → Prop
  | .paramSet o => o.Releases
  | .lpm state o => state > 0 ∨ o.Releases

instance : (c : Call) → Decidable c.Releases
  | .paramSet o => inferInstanceAs (Decidable o.Releases)
  | .lpm state o => inferInstanceAs (Decidable (state > 0 ∨ o.Releases))

section Steps

variable {d : Device} {lost : List ℕ}

@[simp] theorem captureFree_hdl (d : Device) : (captureFree d).capture.hdl = none := by
  by_cases h : d.capture.state = 1
  · rw [captureFree, dif_pos h]
  · rw [captureFree, dif_neg h]
    exact Option.not_isSome_iff_eq_none.mp (mt d.capture.hdl_isSome.mpr h)

@[simp] theorem owned_captureFree (d : Device) :
    (captureFree d).owned = [(captureFree d).capture.block] := by
  rw [Device.owned, captureFree_hdl]

/-- `capture_free` frees what it gives up. -/
theorem captureFree_accounts (ha : Accounts d.heap d.owned lost) :
    Accounts (captureFree d).heap (captureFree d).owned lost := by
  by_cases h : d.capture.state = 1
  · obtain ⟨codec, hcodec⟩ := Option.isSome_iff_exists.mp (d.capture.hdl_isSome.mp h)
    rw [Device.owned, hcodec] at ha
    have hfree := (ha.free).free (p := some codec.block)
    simpa only [captureFree, dif_pos h, hcodec, Option.get_some, Device.owned] using hfree
  · rwa [captureFree, dif_neg h]

variable {codec recv : ℕ} {heap : Heap} {o : Outcome}

/-- The error paths free the handle, and before it the receive buffer. -/
theorem pcmcErr0_accounts (hhdl : d.capture.hdl = none)
    (ha : Accounts heap [codec, d.capture.block] lost) :
    Accounts (pcmcErr0 d codec heap).2.heap (pcmcErr0 d codec heap).2.owned lost := by
  have howned : (pcmcErr0 d codec heap).2.owned = [d.capture.block] := by
    change d.owned = _
    rw [Device.owned, hhdl]
  rw [howned]
  exact ha.free (p := some codec)

theorem pcmcErr1_accounts (hhdl : d.capture.hdl = none)
    (ha : Accounts heap [recv, codec, d.capture.block] lost) :
    Accounts (pcmcErr1 d codec recv heap).2.heap (pcmcErr1 d codec recv heap).2.owned lost :=
  pcmcErr0_accounts hhdl (ha.free (p := some recv))

theorem inputStart_of_fails (hfails : o.InputFails) (codec recv : ℕ) (heap : Heap) :
    inputStart d o codec recv heap = pcmcErr1 d codec recv (heap.alloc o.ringBuf).2 := by
  rw [inputStart]
  by_cases hopen : o.inputOpen = 0
  · rw [if_neg (not_not.mpr hopen)]
    by_cases hconfig : o.inputConfig = 0
    · have hdma : o.dmaHdl = false :=
        (hfails.resolve_left (not_not.mpr hopen)).resolve_left (not_not.mpr hconfig)
      rw [if_neg (not_not.mpr hconfig), hdma]
      rfl
    · rw [if_pos hconfig]
  · rw [if_pos hopen]

/-- A failure loses the ring buffer. -/
theorem inputStart_accounts_of_fails (hhdl : d.capture.hdl = none) (hfails : o.InputFails)
    (ha : Accounts heap [recv, codec, d.capture.block] lost) :
    Accounts (inputStart d o codec recv heap).2.heap (inputStart d o codec recv heap).2.owned
      ((heap.alloc o.ringBuf).1.toList++lost) := by
  rw [inputStart_of_fails hfails]
  exact pcmcErr1_accounts hhdl ((ha.alloc o.ringBuf).lose _)

/-- A success loses the DMA handle and the receive buffer: of the five blocks, the ring buffer
and the codec handle are found again. -/
theorem inputStart_accounts_of_not_fails (hfails : ¬o.InputFails)
    (ha : Accounts heap [recv, codec, d.capture.block] lost) :
    Accounts (inputStart d o codec recv heap).2.heap (inputStart d o codec recv heap).2.owned
      ([(heap.alloc o.ringBuf).2.next, recv]++lost) := by
  obtain ⟨hopen, hconfig, hdma⟩ : o.inputOpen = 0 ∧ o.inputConfig = 0 ∧ o.dmaHdl = true := by
    simpa only [Outcome.InputFails, not_or, ne_eq, not_not, Bool.not_eq_false] using hfails
  rw [inputStart, if_neg (not_not.mpr hopen), if_neg (not_not.mpr hconfig), hdma]
  have hall := ((ha.alloc o.ringBuf).alloc true).perm (List.perm_middle.cons _)
  exact hall.lose [_, _]

theorem pcmcOpen_accounts {ok : Bool} (hd : (pcmcOpen ok).2 = some d) :
    Accounts d.heap d.owned [] := by
  cases ok with
  | false => cases hd
  | true =>
    obtain rfl := Option.some.inj hd
    exact accounts_empty.alloc true

theorem pcmcClose_accounts (ha : Accounts d.heap d.owned lost) :
    Accounts (pcmcClose d).2 [] lost := by
  have hfree := captureFree_accounts ha
  rw [owned_captureFree] at hfree
  exact hfree.free (p := some _)

/-- What a call of `pcmc_param_set` loses. -/
theorem pcmcParamSet_accounts (ha : Accounts d.heap d.owned lost) (o : Outcome) :
    ∃ more, Accounts (pcmcParamSet d o).2.heap (pcmcParamSet d o).2.owned (more++lost) ∧
      (more = [] ↔ o.Releases) := by
  have hfree := captureFree_accounts ha
  have hhdl := captureFree_hdl d
  cases hcodec : o.codec with
  | false =>
    refine ⟨[], ?_, iff_of_true rfl (Or.inl hcodec)⟩
    rw [pcmcParamSet, hcodec]
    exact hfree
  | true =>
    rw [owned_captureFree] at hfree
    have hhandle := hfree.alloc true
    cases hrecv : o.recv with
    | false =>
      refine ⟨[], ?_, iff_of_true rfl (Or.inr (Or.inl hrecv))⟩
      rw [pcmcParamSet, hcodec, hrecv]
      exact pcmcErr0_accounts hhdl hhandle
    | true =>
      have hboth := hhandle.alloc true
      have hreleases : o.Releases ↔ o.ringBuf = false ∧ o.InputFails := by
        simp [Outcome.Releases, hcodec, hrecv]
      rw [pcmcParamSet, hcodec, hrecv, hreleases]
      by_cases hfails : o.InputFails
      · refine ⟨_, inputStart_accounts_of_fails hhdl hfails hboth, ?_⟩
        rw [and_iff_left hfails]
        cases o.ringBuf <;> simp [Heap.alloc]
      · refine ⟨_, inputStart_accounts_of_not_fails hfails hboth, ?_⟩
        exact iff_of_false (cons_ne_nil _ _) (fun h => hfails h.2)

/-- What a call loses. -/
theorem call_accounts (ha : Accounts d.heap d.owned lost) (c : Call) :
    ∃ more, Accounts (d.call c).heap (d.call c).owned (more++lost) ∧ (more = [] ↔ c.Releases) := by
  cases c with
  | paramSet o => exact pcmcParamSet_accounts ha o
  | lpm state o =>
    by_cases hstate : state > 0
    · refine ⟨[], ?_, iff_of_true rfl (Or.inl hstate)⟩
      rw [Device.call, pcmcLpm, if_pos hstate]
      exact captureFree_accounts ha
    · obtain ⟨more, haccounts, hmore⟩ := pcmcParamSet_accounts ha o
      refine ⟨more, ?_, hmore.trans (or_iff_right hstate).symm⟩
      rwa [Device.call, pcmcLpm, if_neg hstate]

/-- What a list of calls loses. -/
theorem calls_accounts (calls : List Call) :
    ∀ {d : Device} {lost : List ℕ}, Accounts d.heap d.owned lost →
      ∃ more, Accounts (calls.foldl Device.call d).heap (calls.foldl Device.call d).owned
          (more++lost) ∧ (more = [] ↔ ∀ c ∈ calls, c.Releases) := by
  induction calls with
  | nil => exact fun ha => ⟨[], ha, iff_of_true rfl (forall_mem_nil _)⟩
  | cons c calls ih =>
    intro d lost ha
    obtain ⟨first, hfirst, hc⟩ := call_accounts ha c
    obtain ⟨rest, hrest, hcalls⟩ := ih hfirst
    refine ⟨rest++first, by rwa [append_assoc], ?_⟩
    rw [append_eq_nil_iff, hcalls, hc, forall_mem_cons, and_comm]

end Steps

/-- When `pcmc_close` returns, every block has been freed exactly once if and only if every call
lost none. -/
theorem session_frees_once_iff {ok : Bool} {calls : List Call} {heap : Heap}
    (hsession : session ok calls = some heap) :
    heap.AllFreedOnce ↔ ∀ c ∈ calls, c.Releases := by
  obtain ⟨d, hd, rfl⟩ := Option.map_eq_some_iff.mp hsession
  obtain ⟨lost, haccounts, hlost⟩ := calls_accounts calls (pcmcOpen_accounts hd)
  rw [append_nil] at haccounts
  rw [← hlost]
  exact allFreedOnce_iff (pcmcClose_accounts haccounts)

/-- A first call that finds no memory and a second one that fails without a ring buffer. -/
theorem session_frees_once_failing :
    session true [.paramSet ⟨false, true, true, 0, 0, true⟩,
        .paramSet ⟨true, true, false, -1, 0, true⟩] = some ⟨3, [0, 1, 2]⟩ ∧
      (⟨3, [0, 1, 2]⟩ : Heap).AllFreedOnce :=
  have hsession : session true [.paramSet ⟨false, true, true, 0, 0, true⟩,
      .paramSet ⟨true, true, false, -1, 0, true⟩] = some ⟨3, [0, 1, 2]⟩ := rfl
  ⟨hsession, (session_frees_once_iff hsession).mpr (by decide)⟩

/-- One successful configuration, and the receive buffer and the DMA handle are never freed. -/
theorem session_loses_receive_buffer :
    session true [.paramSet ⟨true, true, true, 0, 0, true⟩] = some ⟨5, [0, 1, 3]⟩ ∧
      ¬(⟨5, [0, 1, 3]⟩ : Heap).AllFreedOnce :=
  ⟨rfl, by decide⟩

end PineVoice.SndCapture
