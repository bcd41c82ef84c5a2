import Mathlib.Data.Int.Notation
import Mathlib.Data.List.Nodup
import Mathlib.Data.List.TakeWhile
import PineVoice.Transition

/-!
# The device framework

Devices are registered under the name of their driver and a number, found by both, and opened by
several tasks. The tag of a device is stored in sixteen bits, its number in eight; closing a
device that others still hold reports an error.
-/

namespace PineVoice.Devices

open Transition List

/-- `aos_dev_t` and its driver. -/
structure Device where
  /-- `drv->name`. -/
  name : List Char
  /-- `id`. -/
  id : UInt8
  /-- `drv->device_id`. -/
  deviceId : BitVec 16
  /-- `ref`. -/
  ref : BitVec 16
deriving DecidableEq

/-- `device_find`: the place of the device in the list. -/
def deviceFind (s : List Device) (name : List Char) (id : ℤ) : Option ℕ :=
  s.findIdx? fun d => d.name = name ∧ (d.id.toNat : ℤ) = id

/-- The loop of `alloc_device_id`. -/
def allocLoop (s : List Device) : ℕ → BitVec 32 → Option (BitVec 32)
  | 0, _ => none
  | fuel+1, index =>
    if s.any fun d => d.deviceId.signExtend 32 = (index+1) <<< 16 then allocLoop s fuel (index+1)
    else some ((index+1) <<< 16)

/-- `alloc_device_id`. -/
def allocDeviceId (s : List Device) (fuel : ℕ) (rand : BitVec 32) : Option (BitVec 32) :=
  allocLoop s fuel (rand &&& 0xFFFF)

/-- A call of `driver_register`. -/
structure Register where
  /-- `drv->name`. -/
  name : List Char
  /-- `idx`. -/
  idx : ℤ
  /-- What `rand` returns. -/
  rand : BitVec 32
  /-- `drv->init` returns a device. -/
  ok : Bool

/-- `driver_register`. -/
def driverRegister (fuel : ℕ) (s : List Device) (r : Register) : Option (List Device × ℤ) :=
  if deviceFind s r.name r.idx ≠ none ∨ ¬r.ok then some (s, -1)
  else (allocDeviceId s fuel r.rand).map fun tag =>
    (s ++ [⟨r.name, UInt8.ofInt r.idx, tag.setWidth 16, 0⟩], 0)

/-- The devices after a registration. -/
def register (fuel : ℕ) (s : List Device) (r : Register) : Option (List Device) :=
  (driverRegister fuel s r).map Prod.fst

/-- `device_tags`. -/
def deviceTags (d : Device) : BitVec 32 := d.deviceId.signExtend 32

/-! ## Tags -/

section Tags

variable {s : List Device}

/-- With tags of zero the search ends in the second round. -/
theorem allocLoop_returns (h : ∀ d ∈ s, d.deviceId = 0) {fuel : ℕ} (hfuel : 2 ≤ fuel)
    (index : BitVec 32) : ∃ tag : BitVec 32, allocLoop s fuel index = some (tag <<< 16) := by
  obtain ⟨fuel, rfl⟩ := Nat.exists_eq_add_of_le' hfuel
  rw [allocLoop]
  split
  · have hnot : ¬s.any (fun d => d.deviceId.signExtend 32 = (index+1+1) <<< 16) = true := by
      rename_i hfound
      obtain ⟨d, hd, hzero⟩ := any_eq_true.mp hfound
      rw [any_eq_true]
      rintro ⟨e, he, hnext⟩
      simp only [h d hd, h e he, decide_eq_true_eq] at hzero hnext
      have h1 := congrArg BitVec.toNat hzero
      have h2 := congrArg BitVec.toNat hnext
      simp [Nat.shiftLeft_eq] at h1 h2
      omega
    rw [allocLoop, if_neg hnot]
    exact ⟨_, rfl⟩
  · exact ⟨_, rfl⟩

theorem register_returns (h : ∀ d ∈ s, d.deviceId = 0) {fuel : ℕ} (hfuel : 2 ≤ fuel)
    (r : Register) : ∃ s', register fuel s r = some s' ∧ ∀ d ∈ s', d.deviceId = 0 := by
  rw [register, driverRegister]
  split
  · exact ⟨s, rfl, h⟩
  · obtain ⟨tag, htag⟩ := allocLoop_returns h hfuel (r.rand &&& 0xFFFF)
    rw [allocDeviceId, htag]
    refine ⟨_, rfl, forall_mem_append.mpr ⟨h, forall_mem_singleton.mpr ?_⟩⟩
    apply BitVec.eq_of_toNat_eq
    simp

/-- All tags are zero, so those of any two devices differ exactly if there is one device at
most. -/
theorem device_tags_differ_iff (fuel : ℕ) (calls : List Register) :
    ∃ s, run (register (fuel+2)) [] calls = some s ∧
      ((s.map deviceTags).Nodup ↔ s.length ≤ 1) := by
  obtain ⟨s, hrun, hzero⟩ := run_returns
    (fun s r _ h => register_returns h (Nat.le_add_left 2 fuel) r) (along_true calls [])
    (forall_mem_nil fun d : Device => d.deviceId = 0)
  have htags : s.map deviceTags = replicate s.length 0 := by
    refine map_eq_replicate_iff.mpr fun d hd => ?_
    rw [deviceTags, hzero d hd]
    rfl
  exact ⟨s, hrun, by rw [htags, nodup_replicate]⟩

/-- Two devices have the tag zero. -/
theorem device_tags_equal :
    (run (register 2) [] [⟨['a'], 0, 1, true⟩, ⟨['b'], 0, 2, true⟩]).map (map deviceTags) =
      some [0, 0] := by
  decide

end Tags

/-! ## Names -/

/-- `dev_name_parse`: the name is split at its first digit. `atoi` beyond the range of `int` is not
looked at. -/
def devNameParse (name : List Char) : List Char × ℤ :=
  (name.takeWhile (!·.isDigit),
    Nat.ofDigitChars 10 ((name.dropWhile (!·.isDigit)).takeWhile Char.isDigit) 0)

/-- `device_open_id`; `ok` says if the driver's `open` returns 0. -/
def deviceOpenId (s : List Device) (name : List Char) (id : ℤ) (ok : Bool) :
    List Device × Option ℕ :=
  match deviceFind s name id with
  | none => (s, none)
  | some i =>
    if s[i]?.any (·.ref = 0) ∧ ¬ok then (s, none)
    else (s.modify i fun d => { d with ref := d.ref+1 }, some i)

/-- `device_open`. -/
def deviceOpen (s : List Device) (name : List Char) (ok : Bool) : List Device × Option ℕ :=
  deviceOpenId s (devNameParse name).1 (devNameParse name).2 ok

section Names

variable {fuel : ℕ} {s s' t : List Device}

theorem driverRegister_zero {r : Register} (h : driverRegister fuel s r = some (s', 0)) :
    deviceFind s r.name r.idx = none ∧
      ∃ d : Device, s' = s ++ [d] ∧ d.name = r.name ∧ d.id = UInt8.ofInt r.idx := by
  rw [driverRegister] at h
  split at h
  · cases h
  · rename_i hfree
    obtain ⟨tag, -, heq⟩ := Option.map_eq_some_iff.mp h
    cases heq
    exact ⟨not_not.mp fun hne => hfree (.inl hne), _, rfl, rfl, rfl⟩

/-- Devices stay where they are. -/
theorem run_register_prefix {calls : List Register} (h : run (register fuel) s calls = some t) :
    s <+: t := by
  refine run_keeps (P := (s <+: ·)) (fun u r u' _ hp hstep => ?_)
    (along_true calls s) prefix_rfl h
  obtain ⟨⟨v, ret⟩, hreg, rfl⟩ := Option.map_eq_some_iff.mp hstep
  rw [driverRegister] at hreg
  split at hreg
  · cases hreg
    exact hp
  · obtain ⟨tag, -, heq⟩ := Option.map_eq_some_iff.mp hreg
    cases heq
    exact hp.trans (prefix_append ..)

theorem devNameParse_digits {name : List Char} (h : ∀ c ∈ name, c.isDigit = false) (idx : ℕ) :
    devNameParse (name ++ Nat.toDigits 10 idx) = (name, (idx : ℤ)) := by
  have hdigit : ∀ c ∈ Nat.toDigits 10 idx, c.isDigit = true := fun c =>
    Nat.isDigit_of_mem_toDigits (by decide) (by decide)
  have hname : ∀ c ∈ name, (!c.isDigit) = true := fun c hc => by rw [h c hc]; rfl
  obtain ⟨c, digits, hcons⟩ := exists_cons_of_ne_nil (Nat.toDigits_ne_nil (n := idx) (b := 10))
  have hc : c.isDigit = true := hdigit c (hcons ▸ mem_cons_self)
  have hsplit : (Nat.toDigits 10 idx).takeWhile (!·.isDigit) = [] ∧
      (Nat.toDigits 10 idx).dropWhile (!·.isDigit) = Nat.toDigits 10 idx := by
    simp [hcons, hc]
  rw [devNameParse, takeWhile_append_of_pos hname, dropWhile_append_of_pos hname, hsplit.1,
    hsplit.2, takeWhile_eq_self_iff.mpr hdigit, append_nil,
    Nat.ofDigitChars_toDigits (by decide) (by decide)]

theorem deviceOpen_snd (s : List Device) (name : List Char) :
    (deviceOpen s name true).2 = deviceFind s (devNameParse name).1 (devNameParse name).2 := by
  rw [deviceOpen, deviceOpenId]
  cases deviceFind s (devNameParse name).1 (devNameParse name).2 <;> simp

/-- A device is opened by its name and number, and they are not registered again, exactly if the
name has no digit and the number is below 256. -/
theorem device_open_by_name_iff {r : Register} {idx : ℕ} {more : List Register}
    (hidx : r.idx = idx) (hreg : driverRegister fuel s r = some (s', 0))
    (hmore : run (register fuel) s' more = some t) :
    ((deviceOpen t (r.name ++ Nat.toDigits 10 idx) true).2 = some s.length ∧
      ∀ rand ok, driverRegister fuel t ⟨r.name, r.idx, rand, ok⟩ = some (t, -1)) ↔
    (∀ c ∈ r.name, c.isDigit = false) ∧ idx < 256 := by
  obtain ⟨hfree, d, rfl, hname, hid⟩ := driverRegister_zero hreg
  obtain ⟨rest, rfl⟩ := run_register_prefix hmore
  have hid' : (d.id.toNat : ℤ) = r.idx ↔ idx < 256 := by
    rw [hid, hidx, UInt8.ofInt]
    simp
    omega
  rw [deviceOpen_snd]
  constructor
  · rintro ⟨hopen, -⟩
    obtain ⟨_, hfound, -⟩ := findIdx?_eq_some_iff_getElem.mp hopen
    simp only [append_assoc, cons_append, nil_append, decide_eq_true_eq,
      getElem_append_right (Nat.le_refl s.length), Nat.sub_self, getElem_cons_zero, hname] at hfound
    have hdigits (c : Char) (hc : c ∈ r.name) : c.isDigit = false := by
      rw [hfound.1] at hc
      simpa using mem_takeWhile_imp hc
    rw [devNameParse_digits hdigits, ← hidx, hid'] at hfound
    exact ⟨hdigits, hfound.2⟩
  · rintro ⟨hdigits, hlt⟩
    have hfind : deviceFind (s ++ [d] ++ rest) r.name r.idx = some s.length := by
      rw [deviceFind] at hfree ⊢
      rw [append_assoc, findIdx?_append, hfree, Option.none_or, cons_append, findIdx?_cons,
        if_pos (decide_eq_true ⟨hname, hid'.mpr hlt⟩), Option.map_some, Nat.zero_add]
    rw [devNameParse_digits hdigits, ← hidx]
    refine ⟨hfind, fun rand ok => ?_⟩
    rw [driverRegister, if_pos (.inl (by rw [hfind]; exact Option.some_ne_none _))]

end Names

/-- `i2c0` is split into `i` and 2, and the number 256 is stored as 0. -/
theorem device_open_fails :
    (run (register 2) [] [⟨['i', '2', 'c'], 0, 1, true⟩, ⟨['u'], 256, 2, true⟩]).map (fun s =>
      ((deviceOpen s ['i', '2', 'c', '0'] true).2, (deviceOpen s ['u', '2', '5', '6'] true).2,
        (driverRegister 2 s ⟨['u'], 256, 3, true⟩).map Prod.snd)) =
      some (none, none, some 0) := by
  decide +kernel

/-- The second of three devices, which two more registrations follow, one of them refused. -/
theorem device_open_by_name_uart :
    (deviceOpen [⟨['s'], 0, 0, 0⟩, ⟨['u'], 7, 0, 0⟩, ⟨['u'], 8, 0, 0⟩] ['u', '7'] true).2 = some 1 :=
  ((@device_open_by_name_iff 2 [⟨['s'], 0, 0, 0⟩] [⟨['s'], 0, 0, 0⟩, ⟨['u'], 7, 0, 0⟩] _
    ⟨['u'], 7, 1, true⟩ 7 [⟨['u'], 8, 2, true⟩, ⟨['u'], 7, 3, true⟩] rfl (by decide)
    (by decide)).mpr ⟨by simp, by decide⟩).1

/-! ## Open and close -/

/-- An operation of the driver. -/
inductive DriverOp where
  | open
  | close
deriving DecidableEq

/-- `device_close` on a device whose driver's `close` returns 0: the device, the operations that
are called, and what is returned. -/
def deviceClose (d : Device) : Device × List DriverOp × ℤ :=
  if 0 < d.ref then
    if d.ref-1 = 0 then ({ d with ref := d.ref-1 }, [.close], 0)
    else ({ d with ref := d.ref-1 }, [], -9)
  else (d, [], -9)

/-- A device and those who hold it. -/
structure Held where
  /-- The device. -/
  device : Device
  /-- Opened and not closed since. -/
  holders : ℕ
  /-- What the driver was asked to do. -/
  ops : List DriverOp

/-- A device after its registration. -/
def Held.init (d : Device) : Held := ⟨{ d with ref := 0 }, 0, []⟩

/-- A call, under the lock of the device. -/
inductive Act where
  | open
  | close

/-- The operations of the driver that a call makes; the driver's `open` returns 0. -/
def Held.calls (h : Held) : Act → List DriverOp
  | .open => if h.device.ref = 0 then [.open] else []
  | .close => (deviceClose h.device).2.1

/-- One call of `device_open_id` or `device_close`. -/
def step (h : Held) (a : Act) : Option Held :=
  match a with
  | .open => some ⟨{ h.device with ref := h.device.ref+1 }, h.holders+1, h.ops ++ h.calls a⟩
  | .close => some ⟨(deviceClose h.device).1, h.holders-1, h.ops ++ h.calls a⟩

/-- The driver is asked exactly by the first and the last holder, and a close of a held device
returns 0. -/
def Balanced (h : Held) : Act → Prop
  | .open => h.calls .open = if h.holders = 0 then [.open] else []
  | .close => h.calls .close = (if h.holders = 1 then [.close] else []) ∧
      (0 < h.holders → (deviceClose h.device).2.2 = 0)

/-- A close comes from the only holder, and the count does not pass its sixteen bits. -/
def InOrder (h : Held) : Act → Prop
  | .open => h.holders % 65536 = 0 → h.holders = 0
  | .close => h.holders ≤ 1

/-- Open and close in turn. -/
def alternating (n : ℕ) : List DriverOp :=
  (range n).map fun i => if i % 2 = 0 then .open else .close

/-- The count and the operations in runs that are in order. -/
structure Counts (h : Held) : Prop where
  /-- The count wraps. -/
  ref : h.device.ref.toNat = h.holders % 65536
  /-- The driver is open while the device is held. -/
  ops : ∃ n, h.ops = alternating n ∧ n % 2 = if h.holders = 0 then 0 else 1

section OpenClose

variable {h h' : Held} {a : Act}

theorem deviceClose_snd (d : Device) :
    (deviceClose d).2 = if d.ref = 1 then ([.close], 0) else ([], -9) := by
  rw [deviceClose]
  split_ifs <;> first | rfl | (exfalso; bv_omega)

theorem Counts.balanced_iff (hc : Counts h) (a : Act) : Balanced h a ↔ InOrder h a := by
  have href := hc.ref
  cases a with
  | «open» =>
    have hzero : h.device.ref = 0 ↔ h.holders % 65536 = 0 := by
      rw [← href, ← BitVec.toNat_inj]
      rfl
    simp only [Balanced, Held.calls, hzero, InOrder]
    split_ifs <;> simp_all
  | close =>
    have hone : h.device.ref = 1 ↔ h.holders % 65536 = 1 := by
      rw [← href, ← BitVec.toNat_inj]
      rfl
    simp only [Balanced, Held.calls, deviceClose_snd, hone, InOrder]
    split_ifs <;> simp <;> omega

theorem alternating_succ (n : ℕ) :
    alternating (n+1) = alternating n ++ [if n % 2 = 0 then .open else .close] := by
  rw [alternating, range_succ, map_append]
  rfl

theorem Counts.step (hc : Counts h) (ha : InOrder h a) (hstep : step h a = some h') :
    Counts h' := by
  obtain ⟨n, hops, hn⟩ := hc.ops
  have href := hc.ref
  have hbalanced := (hc.balanced_iff a).mpr ha
  cases a with
  | «open» =>
    cases hstep
    refine ⟨by simp [href], ?_⟩
    rw [hbalanced, hops]
    by_cases hzero : h.holders = 0
    · rw [if_pos hzero] at hn
      exact ⟨n+1, by simp [alternating_succ, hzero, hn], by simp; omega⟩
    · rw [if_neg hzero] at hn
      exact ⟨n, by simp [hzero], by simp [hn]⟩
  | close =>
    cases hstep
    rcases Nat.le_one_iff_eq_zero_or_eq_one.mp ha with hzero | hone
    · have href : h.device.ref = 0 := BitVec.eq_of_toNat_eq (by rw [href, hzero]; rfl)
      exact ⟨by simp [deviceClose, href, hzero], n, by simp [hbalanced.1, hzero, hops],
        by simpa [hzero] using hn⟩
    · have href : h.device.ref = 1 := BitVec.eq_of_toNat_eq (by rw [href, hone]; rfl)
      have hodd : n % 2 = 1 := by simpa [hone] using hn
      exact ⟨by simp [deviceClose, href, hone], n+1,
        by simp [hbalanced.1, hone, hops, alternating_succ, hodd], by simp [hone]; omega⟩

/-- In a run of calls the driver's operations are called in turn, exactly by the first and the last
holder, and every close of a held device returns 0, exactly if the run is in order. -/
theorem open_close_balanced_iff (d : Device) (acts : List Act) :
    Along step Balanced (.init d) acts ∧
        (∀ h, run step (.init d) acts = some h → ∃ n, h.ops = alternating n) ↔
      Along step InOrder (.init d) acts := by
  have hinit : Counts (.init d) := ⟨rfl, 0, rfl, rfl⟩
  constructor
  · rintro ⟨hgood, -⟩
    exact along_keeps (fun h a h' ha hc => hc.step ((hc.balanced_iff a).mp ha))
      (fun h a ha hc => (hc.balanced_iff a).mp ha) hgood hinit
  · intro horder
    have hkeeps : ∀ h a h', InOrder h a → Counts h → step h a = some h' → Counts h' :=
      fun h a h' ha hc => hc.step ha
    refine ⟨along_keeps hkeeps (fun h a ha hc => (hc.balanced_iff a).mpr ha) horder hinit,
      fun h hrun => ?_⟩
    obtain ⟨n, hn, -⟩ := (run_keeps hkeeps horder hinit hrun).ops
    exact ⟨n, hn⟩

/-- The first of two holders closes the device and gets an error. -/
theorem device_close_fails :
    (run step (.init ⟨['u'], 0, 0, 0⟩) [.open, .open]).map (fun h =>
      (h.holders, (deviceClose h.device).2.2)) = some (2, -9) := by
  decide

end OpenClose

end PineVoice.Devices
