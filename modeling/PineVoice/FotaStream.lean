import PineVoice.Fota
import PineVoice.Transition
import Mathlib.Order.Basic

/-!
# What the download task stores

The source, the destination and the stored offset are advanced at different places. They agree as
long as no write is short, no write fails that is then retried, no client read fails behind bytes
of the same `http_read`, and `http_read` does not come back empty before the end of the source.
-/

namespace PineVoice.Download

open List

section Condition

variable (cfg : Setup) (f : Fota)

/-- The first read fails or brings bytes, and no later one fails. -/
def readsWhole : List ℤ → Bool
  | [] => false
  | r :: reads => r < 0 || 0 < r && reads.all fun x => 0 ≤ x

/-- The source is at its end, or the reads are whole. -/
def readsOk (i : Input) : Bool :=
  f.fromIo.all fun io => cfg.source.length ≤ io.offset || readsWhole i.http.reads

/-- The write is whole, or fails with no retry left. -/
def writeOk (i : Input) : Bool :=
  match i.write with
  | .whole => true
  | .short _ => false
  | .fail => f.retry = 0

/-- A step under which the offsets stay together: a round that downloads reads and
writes whole, and `fota_download` does not take an aborted download up again when
no retry is left. -/
def stepOk : Action → Bool
  | .task i => f.pc ≠ .downloadWait || f.quit || readsOk cfg f i && writeOk f i
  | .download _ => f.status ≠ .abort || f.retry ≠ 0
  | _ => true

end Condition

/-- Every step of a run is one under which the offsets stay together. -/
def runOk (cfg : Setup) : List Action → Fota → Bool
  | [], _ => true
  | act :: acts, f => stepOk cfg f act && (step cfg f act).all (runOk cfg acts)

/-- The first `n` bytes of the source are stored. -/
def Reaches (cfg : Setup) (stored : ℕ → Option UInt8) (n : ℕ) : Prop :=
  n ≤ cfg.source.length ∧ ∀ i < n, stored i = cfg.source[i]?

variable {n : ℕ}

theorem Reaches.mono {cfg : Setup} {stored : ℕ → Option UInt8} {m : ℕ} (h : Reaches cfg stored n)
    (hmn : m ≤ n) : Reaches cfg stored m :=
  ⟨hmn.trans h.1, fun i hi => h.2 i (hi.trans_le hmn)⟩

/-- What holds of the device whatever the task does. -/
structure Settled (cfg : Setup) (f : Fota) : Prop where
  /-- What is stored is from the source. -/
  sound : ∀ i b, f.stored i = some b → cfg.source[i]? = some b
  /-- The stored offset does not run ahead of the bytes. -/
  kv : ∀ n, f.kvOffset = some n → Reaches cfg f.stored n
  /-- Every verification was made over the source. -/
  verified : ∀ ret stored, Event.verify ret stored ∈ f.log → ∀ i, stored i = cfg.source[i]?

/-- The client of a netio, if it is connected, is at its offset. -/
def HttpIo.InStep (cfg : Setup) (io : HttpIo) : Prop :=
  io.client = none ∨ io.client = some io.offset ∧ io.size = cfg.source.length

/-- The offsets of a download that goes on. -/
structure Streaming (cfg : Setup) (f : Fota) (io : HttpIo) : Prop where
  /-- The source is open. -/
  fromIo : f.fromIo = some io
  /-- The destination is at the same offset. -/
  toIo : f.toIo = some io.offset
  /-- So is the client. -/
  client : io.InStep cfg
  /-- The offset to be stored next does not run ahead. -/
  offset : f.offset ≤ io.offset
  /-- All bytes before the offset are stored. -/
  reaches : Reaches cfg f.stored io.offset

/-- The invariant of the runs in which every step keeps the offsets together. -/
structure InSync (cfg : Setup) (f : Fota) : Prop extends Settled cfg f where
  /-- An aborted task is at the top of its loop. -/
  abort : f.status = .abort → f.pc = .top
  /-- A download that goes on, or will be retried, is in step. -/
  live : f.status = .download ∨ f.status = .abort ∧ f.retry ≠ 0 → ∃ io, Streaming cfg f io

variable {cfg : Setup} {f : Fota}

section Reading

/-- Reads that do not fail return the next bytes of the source. -/
theorem readLoop_spec (source : List UInt8) (length : ℕ) (reads : List ℤ) (readLen pos : ℕ)
    (hpos : pos ≤ source.length) (hreads : ∀ r ∈ reads, 0 ≤ r) :
    ∃ k, readLoop source length reads readLen pos = (((readLen+k : ℕ) : ℤ), pos+k) ∧
      pos+k ≤ source.length := by
  induction reads generalizing readLen pos with
  | nil => exact ⟨0, rfl, hpos⟩
  | cons r reads ih =>
    have hr := hreads r mem_cons_self
    unfold readLoop
    split
    · exact ⟨0, rfl, hpos⟩
    · rw [if_neg (by omega)]
      dsimp only
      generalize hd : min r.toNat (min (length-readLen) (source.length-pos)) = d
      split
      · exact ⟨0, rfl, hpos⟩
      · obtain ⟨k, hk, hle⟩ := ih (readLen+d) (pos+d) (by omega) fun x hx =>
          hreads x (mem_cons_of_mem _ hx)
        refine ⟨d+k, ?_, by omega⟩
        rw [hk, Nat.add_assoc, Nat.add_assoc]

variable {reads : List ℤ}

/-- Whole reads fail without a byte, or return the next bytes and at least one. -/
theorem readLoop_whole {source : List UInt8} {length : ℕ} {pos : ℕ} (hlen : 0 < length)
    (hpos : pos < source.length) (hreads : readsWhole reads = true) :
    (readLoop source length reads 0 pos).1 < 0 ∧ (readLoop source length reads 0 pos).2 = pos ∨
    ∃ k : ℕ, 0 < k ∧ readLoop source length reads 0 pos = ((k : ℤ), pos+k) ∧
      pos+k ≤ source.length := by
  cases reads with
  | nil => cases hreads
  | cons r reads =>
    simp only [readsWhole, Bool.or_eq_true, Bool.and_eq_true, decide_eq_true_eq,
      List.all_eq_true] at hreads
    unfold readLoop
    rw [if_neg (by omega)]
    rcases hreads with hr | ⟨hr, hrest⟩
    · rw [if_pos hr]
      exact .inl ⟨hr, rfl⟩
    · rw [if_neg (by omega)]
      generalize hd : min r.toNat (min (length-0) (source.length-pos)) = d
      rw [if_neg (by omega)]
      obtain ⟨k, hk, hle⟩ := readLoop_spec source length reads (0+d) (pos+d) (by omega) hrest
      refine .inr ⟨d+k, by omega, ?_, by omega⟩
      rw [hk, Nat.zero_add, Nat.add_assoc]

/-- What `http_read` does to a netio that is in step at an offset. -/
inductive ReadOutcome (cfg : Setup) (offset : ℕ) : ℤ × List UInt8 × HttpIo → Prop
  /-- It fails, and the netio stays where it is. -/
  | failed {ret : ℤ} {io : HttpIo} (hret : ret < 0) (hoff : io.offset = offset)
    (hstep : io.InStep cfg) : ReadOutcome cfg offset (ret, [], io)
  /-- The source is at its end. -/
  | ended {io : HttpIo} (hend : cfg.source.length ≤ offset) (hoff : io.offset = offset)
    (hstep : io.InStep cfg) : ReadOutcome cfg offset (0, [], io)
  /-- It returns the next bytes. -/
  | bytes {k : ℕ} {io : HttpIo} (hk : 0 < k) (hle : offset+k ≤ cfg.source.length)
    (hoff : io.offset = offset+k) (hstep : io.InStep cfg) :
    ReadOutcome cfg offset ((k : ℤ), (cfg.source.drop offset).take k, io)

theorem httpReadBody_outcome (io : HttpIo) (hstep : io.InStep cfg)
    (hsize : io.size = cfg.source.length)
    (hreads : cfg.source.length ≤ io.offset ∨ readsWhole reads = true) :
    ReadOutcome cfg io.offset (httpReadBody cfg io io.offset reads) := by
  unfold httpReadBody
  split
  · exact .ended (by omega) rfl hstep
  · have hpos : io.offset < cfg.source.length := by omega
    have hwhole := hreads.resolve_left (by omega)
    rcases readLoop_whole cfg.buffer_pos hpos hwhole with ⟨hneg, hat⟩ | ⟨k, hk, hloop, hle⟩
    · rw [if_pos hneg, hat]
      exact .failed hneg rfl (.inr ⟨rfl, hsize⟩)
    · rw [hloop]
      exact .bytes hk hle rfl (.inr ⟨rfl, hsize⟩)

/-- What `http_read` returns. -/
theorem httpRead_outcome {io : HttpIo} {i : HttpInput} (hstep : io.InStep cfg)
    (hle : io.offset ≤ cfg.source.length)
    (hreads : cfg.source.length ≤ io.offset ∨ readsWhole i.reads = true) :
    ReadOutcome cfg io.offset (httpRead cfg io i) := by
  unfold httpRead
  split
  · rename_i pos hpos
    rcases hstep with hnone | ⟨hsome, hsize⟩
    · cases hnone.symm.trans hpos
    · cases hsome.symm.trans hpos
      exact httpReadBody_outcome io (.inr ⟨hsome, hsize⟩) hsize hreads
  · rename_i hnone
    split
    · have hneg : i.connect.ret < 0 := by
        cases hc : i.connect <;> simp_all [Connect.ret]
      exact .failed hneg rfl (.inl hnone)
    · have hsize : cfg.source.length-io.offset+io.offset = cfg.source.length := by omega
      rw [hsize]
      exact httpReadBody_outcome ⟨io.offset, cfg.source.length, some io.offset⟩
        (.inr ⟨rfl, rfl⟩) rfl hreads

end Reading

section Pieces

variable {e : Event} {s : Status} {io : HttpIo}

section

variable (h : Settled cfg f)
include h

theorem Settled.note (he : ∀ ret stored, e ≠ .verify ret stored) :
    Settled cfg (note f e) where
  sound := h.sound
  kv := h.kv
  verified ret stored hmem := by
    rcases List.mem_cons.mp hmem with heq | hmem
    · exact absurd heq.symm (he ret stored)
    · exact h.verified ret stored hmem

theorem Settled.eventCb (id : EventId) (code : ErrorCode) :
    Settled cfg (eventCb cfg f id code) := by
  unfold Download.eventCb
  split
  · exact h.note fun _ _ => nofun
  · exact h

theorem Settled.release : Settled cfg (fotaRelease f) :=
  ⟨h.sound, h.kv, h.verified⟩

theorem Settled.fotaFail : Settled cfg (fotaFail cfg f) := by
  unfold Download.fotaFail
  split
  · exact h.note fun _ _ => nofun
  · exact h

theorem Settled.setStatus (s : Status) : Settled cfg (setStatus f s) :=
  Settled.note (f := { f with status := s }) ⟨h.sound, h.kv, h.verified⟩ fun _ _ => nofun

end

/-- A service that does not download. -/
structure Idle (cfg : Setup) (f : Fota) : Prop extends Settled cfg f where
  /-- No download goes on. -/
  download : f.status ≠ .download
  /-- None is aborted. -/
  abort : f.status ≠ .abort

theorem Idle.inSync (h : Idle cfg f) : InSync cfg f where
  toSettled := h.toSettled
  abort hs := absurd hs h.abort
  live hs := hs.elim (fun hs => absurd hs h.download) fun hs => absurd hs.1 h.abort

theorem Idle.eventCb (h : Idle cfg f) (id : EventId) (code : ErrorCode) :
    Idle cfg (eventCb cfg f id code) where
  toSettled := h.toSettled.eventCb id code
  download := by simpa using h.download
  abort := by simpa using h.abort

theorem Settled.setIdle (h : Settled cfg f) (hdown : s ≠ .download) (habort : s ≠ .abort)
    : Idle cfg (Download.setStatus f s) :=
  ⟨h.setStatus s, hdown, habort⟩

/-- A download in step goes on, or is aborted at the top of the loop. -/
theorem Settled.setLive (h : Settled cfg f) (hio : Streaming cfg f io)
    (htop : s = .abort → f.pc = .top) : InSync cfg (Download.setStatus f s) where
  toSettled := h.setStatus s
  abort := htop
  live _ := ⟨io, hio.fromIo, hio.toIo, hio.client, hio.offset, hio.reaches⟩

theorem Streaming.eventCb (h : Streaming cfg f io) (id : EventId) (code : ErrorCode)
    : Streaming cfg (eventCb cfg f id code) io := by
  unfold Download.eventCb
  split
  · exact ⟨h.fromIo, h.toIo, h.client, h.offset, h.reaches⟩
  · exact h

theorem InSync.note (h : InSync cfg f) (he : ∀ ret stored, e ≠ .verify ret stored) :
    InSync cfg (note f e) where
  toSettled := h.toSettled.note he
  abort := h.abort
  live hs := (h.live hs).imp fun _ hio => ⟨hio.fromIo, hio.toIo, hio.client, hio.offset, hio.reaches⟩

theorem InSync.eventCb (h : InSync cfg f) (id : EventId) (code : ErrorCode) :
    InSync cfg (eventCb cfg f id code) := by
  unfold Download.eventCb
  split
  · exact h.note fun _ _ => nofun
  · exact h

/-- The part of a state that the invariant is about, without the log. -/
def Fota.core (f : Fota) : Status × Pc × ℤ × Option HttpIo × Option ℕ × ℕ × Option ℕ ×
    (ℕ → Option UInt8) :=
  (f.status, f.pc, f.retry, f.fromIo, f.toIo, f.offset, f.kvOffset, f.stored)

/-- The invariant does not look at the rest of the state. -/
theorem InSync.same {g : Fota} (h : InSync cfg f) (hcore : g.core = f.core)
    (hlog : g.log = f.log) : InSync cfg g := by
  simp only [Fota.core, Prod.mk.injEq] at hcore
  obtain ⟨hs, hpc, hretry, hfrom, hto, hoff, hkv, hstored⟩ := hcore
  refine ⟨⟨?_, ?_, ?_⟩, ?_, ?_⟩
  · rw [hstored]
    exact h.sound
  · rw [hkv, hstored]
    exact h.kv
  · rw [hlog]
    exact h.verified
  · rw [hs, hpc]
    exact h.abort
  · rw [hs, hretry]
    intro hlive
    obtain ⟨io, hio⟩ := h.live hlive
    exact ⟨io, hfrom.trans hio.fromIo, hto.trans hio.toIo, hio.client, hoff.trans_le hio.offset,
      hstored ▸ hio.reaches⟩

theorem InSync.autoCheck (h : InSync cfg f) : InSync cfg (autoCheck f) := by
  unfold Download.autoCheck
  split
  · exact h.same rfl rfl
  · exact h

theorem Settled.taskQuit (h : Settled cfg f) : InSync cfg (taskQuit cfg f) := by
  have hgone : Settled cfg { f with pc := .gone } := ⟨h.sound, h.kv, h.verified⟩
  have hrel : Idle cfg (fotaRelease (Download.setStatus { f with pc := .gone } .none)) :=
    ⟨(hgone.setStatus .none).release, nofun, nofun⟩
  exact (hrel.eventCb .quit .null).inSync

end Pieces

section Rounds

/-- An aborted round stays in step. -/
theorem InSync.abortRound (h : InSync cfg f) (hs : f.status = .abort) :
    InSync cfg (abortRound cfg f) := by
  unfold Download.abortRound
  split
  · rename_i hretry
    obtain ⟨io, hio⟩ := h.live (.inr ⟨hs, hretry⟩)
    have hset : InSync cfg (setStatus { f with retry := f.retry-1 } .download) :=
      Settled.setLive (f := { f with retry := f.retry-1 }) ⟨h.sound, h.kv, h.verified⟩
        ⟨hio.fromIo, hio.toIo, hio.client, hio.offset, hio.reaches⟩ nofun
    exact hset.same rfl rfl
  · have hfail := Settled.fotaFail (f := { f with retry := f.retryCount })
      ⟨h.sound, h.kv, h.verified⟩
    exact (hfail.release.setIdle (s := .init) nofun nofun).inSync.autoCheck

/-- Whether or not the destination can be positioned, from an offset that the
stored bytes reach. -/
theorem Idle.prepareSeek (h : Idle cfg f) (hreach : Reaches cfg f.stored f.offset)
    (i : PrepareInput) : InSync cfg (prepareSeek f i).2 := by
  unfold Download.prepareSeek
  split
  · have hbegin : Settled cfg (note (openAt f) .begin) :=
      Settled.note (f := openAt f) ⟨h.sound, h.kv, h.verified⟩ fun _ _ => nofun
    exact hbegin.setLive ⟨rfl, rfl, .inl rfl, le_rfl, hreach⟩ (s := .download) nofun
  · split
    · refine Idle.inSync ⟨⟨h.sound, ?_, h.verified⟩, h.download, h.abort⟩
      rintro n ⟨⟩
      exact hreach.mono (Nat.zero_le _)
    · exact Idle.inSync ⟨h.toSettled.release, h.download, h.abort⟩

theorem Idle.fotaPrepare (h : Idle cfg f) (i : PrepareInput) : InSync cfg (fotaPrepare f i).2 := by
  have hzero : Reaches cfg f.stored 0 := ⟨Nat.zero_le _, nofun⟩
  have hfail : InSync cfg (fotaRelease f) := Idle.inSync ⟨h.toSettled.release, h.download, h.abort⟩
  fun_cases Download.fotaPrepare f i
  case case1 => exact h.inSync
  case case3 n hn =>
    have hkv : f.kvOffset = some n := by
      split at hn
      · exact hn
      · cases hn
    exact Idle.prepareSeek (f := { f with offset := n })
      ⟨⟨h.sound, h.kv, h.verified⟩, h.download, h.abort⟩ (h.kv n hkv) i
  case case4 =>
    refine Idle.prepareSeek (f := { f with kvOffset := some 0, offset := 0 })
      ⟨⟨h.sound, ?_, h.verified⟩, h.download, h.abort⟩ hzero i
    rintro n ⟨⟩
    exact hzero
  all_goals exact hfail

theorem Idle.initCheck (h : Idle cfg f) (i : Input) : InSync cfg (initCheck cfg f i) := by
  have hv : Idle cfg (fotaVersionCheck cfg f i).2 := by
    unfold fotaVersionCheck
    split
    · exact ⟨⟨h.sound, h.kv, h.verified⟩, h.download, h.abort⟩
    · exact h
  have hok := hv.eventCb .version .null
  fun_cases Download.initCheck cfg f i
  · exact (hok.fotaPrepare i.prepare).eventCb .version .prepare
  · exact hok.fotaPrepare i.prepare
  · exact hok.inSync
  · exact (hv.eventCb .version .versionCheck).inSync

theorem InSync.initRound (h : InSync cfg f) (habort : f.status ≠ .abort) (i : Input) :
    InSync cfg (initRound cfg f i) := by
  fun_cases Download.initRound cfg f i
  case case1 => exact h.toSettled.taskQuit
  case case2 hdown =>
    obtain ⟨io, hio⟩ := h.live (.inl hdown)
    exact ⟨⟨h.sound, h.kv, h.verified⟩, fun _ => rfl, fun _ => ⟨io, hio.fromIo, hio.toIo,
      hio.client, hio.offset, hio.reaches⟩⟩
  all_goals
    have hidle : Idle cfg { f with pc := .top, retry := f.retryCount } :=
      ⟨⟨h.sound, h.kv, h.verified⟩, ‹_›, habort⟩
    exact ((hidle.eventCb .start .null).initCheck i).same rfl rfl

theorem InSync.fotaRestart (h : InSync cfg f) (delayMs : ℤ) (timer : Bool) :
    InSync cfg (fotaRestart cfg f delayMs timer) := by
  have hnote : InSync cfg (Download.note f .restart) := h.note fun _ _ => nofun
  have hhook : InSync cfg (Download.note (Download.note f .restart) .restartHook) :=
    hnote.note fun _ _ => nofun
  unfold Download.fotaRestart
  split
  · exact h
  fun_cases restartBody cfg f delayMs timer
  · exact hnote.same rfl rfl
  · exact hhook.eventCb _ _
  · exact hhook
  · exact hnote

/-- At the end of the source everything is stored, so the verification sees the source. -/
theorem Settled.downloadEnd (h : Settled cfg f) (hreach : Reaches cfg f.stored cfg.source.length)
    (i : Input) : InSync cfg (downloadEnd cfg f i) := by
  have hexact : ∀ n, f.stored n = cfg.source[n]? := by
    intro n
    by_cases hn : n < cfg.source.length
    · exact hreach.2 n hn
    · have hnone : cfg.source[n]? = none := getElem?_eq_none (Nat.le_of_not_lt hn)
      cases hb : f.stored n with
      | none => exact hnone.symm
      | some b => exact (h.sound n b hb).symm
  have hcb := h.eventCb .verify .null
  have hver : Settled cfg (Download.note (Download.eventCb cfg f .verify .null)
      (.verify i.verify f.stored)) := by
    refine ⟨hcb.sound, hcb.kv, fun ret stored hmem => ?_⟩
    rcases List.mem_cons.mp hmem with heq | hmem
    · cases heq
      exact hexact
    · exact hcb.verified ret stored hmem
  have hfin : Settled cfg (fotaFinish cfg (Download.note (Download.eventCb cfg f .verify .null)
      (.verify i.verify f.stored))) := by
    unfold fotaFinish
    split
    · exact hver.note fun _ _ => nofun
    · exact hver
  unfold Download.downloadEnd
  dsimp only
  generalize fotaFinish cfg (Download.note (Download.eventCb cfg f .verify .null)
    (.verify i.verify f.stored)) = g at hfin ⊢
  have hdel : Settled cfg (deleteOffset (fotaRelease g) i.kvDel) := by
    refine ⟨hfin.sound, fun n hn => hfin.kv n ?_, hfin.verified⟩
    unfold deleteOffset at hn
    dsimp only at hn
    split at hn
    · cases hn
    · exact hn
  split
  · exact ((hdel.eventCb .progress .verify).setIdle (s := .init) nofun nofun).inSync.autoCheck
  · have hend := ((hdel.setIdle (s := .finish) nofun nofun).eventCb .finish .null).inSync
    split
    · exact hend.fotaRestart 0 true
    · exact hend

variable {k offset : ℕ} {io : HttpIo} {i : Input}

/-- The next bytes of the source go to the destination. -/
theorem Settled.accept (h : Settled cfg f) (hreach : Reaches cfg f.stored offset)
    (hle : offset+k ≤ cfg.source.length) :
    Settled cfg (accept f offset ((cfg.source.drop offset).take k)) ∧
      Reaches cfg (accept f offset ((cfg.source.drop offset).take k)).stored (offset+k) := by
  have hlen : ((cfg.source.drop offset).take k).length = k := by
    rw [length_take, length_drop]
    omega
  have hat : ∀ n, (Download.accept f offset ((cfg.source.drop offset).take k)).stored n =
      if offset ≤ n ∧ n < offset+k then cfg.source[n]? else f.stored n := by
    intro n
    simp only [Download.accept, storeAt, hlen]
    split
    · rename_i hn
      rw [getElem?_take_of_lt (by omega), getElem?_drop, Nat.add_sub_cancel' hn.1]
    · rfl
  refine ⟨⟨fun n b hb => ?_, fun n hn => ⟨(h.kv n hn).1, fun m hm => ?_⟩, h.verified⟩, hle,
    fun n hn => ?_⟩
  · rw [hat] at hb
    split at hb
    · exact hb
    · exact h.sound n b hb
  · rw [hat]
    split
    · rfl
    · exact (h.kv n hn).2 m hm
  · rw [hat]
    split
    · rfl
    · exact hreach.2 n (by omega)

theorem Settled.writeErr (h : Settled cfg f) (hio : Streaming cfg f io) (hpc : f.pc = .top)
    : InSync cfg (writeErr cfg f) :=
  (h.eventCb .progress .write).setLive (hio.eventCb .progress .write) (s := .abort)
    fun _ => (eventCb_pc cfg f _ _).trans hpc

/-- A write that fails with no retry left ends the download. -/
theorem Settled.writeErr_last (h : Settled cfg f) (hpc : f.pc = .top) (hretry : f.retry = 0) :
    InSync cfg (Download.writeErr cfg f) where
  toSettled := (h.eventCb .progress .write).setStatus .abort
  abort _ := (eventCb_pc cfg f _ _).trans hpc
  live hs := by
    rcases hs with hs | ⟨-, hne⟩
    · cases hs
    · refine absurd ?_ hne
      unfold Download.writeErr Download.eventCb
      split <;> exact hretry

/-- The bytes that a read returned are written. -/
theorem Settled.downloadWrite (h : Settled cfg f) (hpc : f.pc = .top) (hs : f.status = .download)
    (hfrom : f.fromIo = some io) (hclient : io.InStep cfg) (hoff : io.offset = offset+k)
    (hf : f.offset ≤ offset) (hreach : Reaches cfg f.stored offset) (hk : 0 < k)
    (hle : offset+k ≤ cfg.source.length) (hw : writeOk f i = true) :
    InSync cfg (downloadWrite cfg f offset ((cfg.source.drop offset).take k) i) := by
  have hlen : ((cfg.source.drop offset).take k).length = k := by
    rw [length_take, length_drop]
    omega
  obtain ⟨hacc, hmore⟩ := h.accept hreach hle
  have hio : Streaming cfg (Download.accept f offset ((cfg.source.drop offset).take k)) io :=
    ⟨hfrom, by rw [hoff]; exact congrArg (fun n => some (offset+n)) hlen, hclient,
      by rw [hoff]; exact Nat.le_add_right_of_le hf, hoff ▸ hmore⟩
  unfold Download.downloadWrite
  dsimp only
  cases hwrite : i.write with
  | whole =>
    simp only [Write.taken, hlen]
    rw [if_pos hk]
    split
    · have hkv : InSync cfg (storeOffset (Download.accept f offset
          ((cfg.source.drop offset).take k)) k) := by
        refine ⟨⟨hacc.sound, ?_, hacc.verified⟩, fun ha => ?_, fun _ => ⟨io, hio.fromIo, hio.toIo,
          hclient, ?_, hio.reaches⟩⟩
        · rintro n ⟨⟩
          exact hmore.mono (Nat.add_le_add_right hf k)
        · cases hs.symm.trans ha
        · rw [hoff]
          exact Nat.add_le_add_right hf k
      exact (hkv.eventCb .progress .null).same rfl rfl
    · exact hacc.writeErr hio hpc
  | short n => simp only [writeOk, hwrite, Bool.false_eq_true] at hw
  | fail =>
    simp only [writeOk, hwrite, decide_eq_true_eq] at hw
    simp only [Write.taken, length_nil, lt_irrefl, if_false]
    exact h.writeErr_last hpc hw

/-- One round of a download whose reads and write are whole. -/
theorem InSync.downloadRound (h : InSync cfg f) (hs : f.status = .download)
    (hio : Streaming cfg f io) (hok : f.quit = true ∨ readsOk cfg f i = true ∧ writeOk f i = true) :
    InSync cfg (downloadRound cfg f io io.offset i) := by
  unfold Download.downloadRound
  dsimp only
  split
  · exact h.toSettled.taskQuit
  · rename_i hquit
    obtain ⟨hreads, hwrite⟩ := hok.resolve_left hquit
    have hreads : cfg.source.length ≤ io.offset ∨ readsWhole i.http.reads = true := by
      simpa only [readsOk, hio.fromIo, Option.all_some, Bool.or_eq_true, decide_eq_true_eq]
        using hreads
    have hset : ∀ next, Settled cfg (afterRead f next) := fun _ => ⟨h.sound, h.kv, h.verified⟩
    have hout := httpRead_outcome hio.client hio.reaches.1 hreads
    generalize httpRead cfg io i.http = r at hout ⊢
    cases hout with
    | failed hret hoff hstep =>
      rename_i ret next
      dsimp only
      rw [if_pos hret]
      have hnext : Streaming cfg (afterRead f next) next :=
        ⟨rfl, hoff ▸ hio.toIo, hstep, hoff ▸ hio.offset, hoff ▸ hio.reaches⟩
      split
      · exact ⟨⟨h.sound, h.kv, h.verified⟩, fun _ => rfl, fun _ => ⟨next, hnext.fromIo,
          hnext.toIo, hstep, hnext.offset, hnext.reaches⟩⟩
      · exact ((hset next).eventCb .progress .netRead).setLive (hnext.eventCb _ _) (s := .abort)
          fun _ => eventCb_pc cfg _ _ _
    | ended hend hoff hstep =>
      rename_i next
      dsimp only
      rw [if_neg (by omega), if_pos rfl]
      exact (hset next).downloadEnd (hio.reaches.mono hend) i
    | bytes hk hle hoff hstep =>
      rename_i k next
      dsimp only
      rw [if_neg (by omega), if_neg (by omega)]
      exact (hset next).downloadWrite rfl hs rfl hstep hoff hio.offset hio.reaches hk hle hwrite

end Rounds

section Steps

/-- So does the top of the loop. -/
theorem InSync.taskTop (h : InSync cfg f) : InSync cfg (taskTop cfg f) := by
  have hmove : ∀ pc, f.status ≠ .abort → InSync cfg { f with pc := pc } := fun pc hs =>
    ⟨⟨h.sound, h.kv, h.verified⟩, fun ha => absurd ha hs, fun hlive => (h.live hlive).imp
      fun _ hio => ⟨hio.fromIo, hio.toIo, hio.client, hio.offset, hio.reaches⟩⟩
  fun_cases Download.taskTop cfg f
  case case1 => exact h.toSettled.taskQuit
  case case2 => exact hmove .initWait fun ha => by simp_all
  case case3 => exact hmove .downloadWait fun ha => by simp_all
  case case4 => exact h.abortRound ‹_›
  all_goals exact h

variable {next : Fota}

section

variable (h : InSync cfg f)
include h

/-- A turn of the task stays in step. -/
theorem InSync.fotaTask {i : Input} (hw : WaitsInDownload f) (hok : stepOk cfg f (.task i) = true)
    (hs : fotaTask cfg f i = some next) : InSync cfg next := by
  have habort : f.pc ≠ .top → f.status ≠ .abort := fun hpc ha => hpc (h.abort ha)
  revert hs
  fun_cases Download.fotaTask cfg f i
  case case1 hpc =>
    rintro ⟨⟩
    refine ⟨⟨h.sound, h.kv, h.verified⟩, fun _ => rfl, fun hlive => ?_⟩
    have hdown := hlive.resolve_right fun ha => habort (by rw [hpc]; nofun) ha.1
    exact (h.live (.inl hdown)).imp fun _ hio =>
      ⟨hio.fromIo, hio.toIo, hio.client, hio.offset, hio.reaches⟩
  case case2 =>
    rintro ⟨⟩
    exact h.taskTop
  case case4 hpc _ =>
    rintro ⟨⟩
    have hsame : InSync cfg { f with doCheckEvent := f.doCheckEvent-1 } := h.same rfl rfl
    exact hsame.initRound (habort (by rw [hpc]; nofun)) i
  case case6 hpc _ =>
    intro hs
    obtain ⟨io, hio⟩ := h.live (.inl (hw hpc))
    obtain ⟨from', hfrom, hs⟩ := Option.bind_eq_some_iff.mp hs
    obtain ⟨to', hto, hs⟩ := Option.map_eq_some_iff.mp hs
    cases hio.fromIo.symm.trans hfrom
    cases hio.toIo.symm.trans hto
    rw [← hs]
    have hsame : InSync cfg { f with semDownload := f.semDownload-1 } := h.same rfl rfl
    simp only [stepOk, hpc, ne_eq, not_true_eq_false, decide_false, Bool.false_or,
      Bool.or_eq_true, Bool.and_eq_true] at hok
    exact hsame.downloadRound (hw hpc) ⟨hio.fromIo, hio.toIo, hio.client, hio.offset,
      hio.reaches⟩ hok
  all_goals exact nofun

theorem InSync.fotaDoCheck : InSync cfg (fotaDoCheck f) := by
  unfold Download.fotaDoCheck
  split
  · exact (h.toSettled.setIdle (s := .init) nofun nofun).inSync.same rfl rfl
  · exact h

theorem InSync.fotaStart (task : Bool) : InSync cfg (fotaStart f task) := by
  have hset : Settled cfg { f with quit := false } := ⟨h.sound, h.kv, h.verified⟩
  have hinit := hset.setStatus .init
  have hidle : Idle cfg { Download.setStatus { f with quit := false } .init with pc := .entry } :=
    ⟨⟨hinit.sound, hinit.kv, hinit.verified⟩, nofun, nofun⟩
  fun_cases Download.fotaStart f task
  · exact hidle.inSync.fotaDoCheck
  · exact hidle.inSync
  · exact (Settled.setIdle (f := { setStatus { f with quit := false } .init with quit := true })
      ⟨hinit.sound, hinit.kv, hinit.verified⟩ (s := .none) (by simp) (by simp)).inSync
  · exact h

theorem InSync.fotaDownload {i : PrepareInput} (hok : stepOk cfg f (.download i) = true) :
    InSync cfg (fotaDownload cfg f i) := by
  have hp : f.status = .init ∨ f.status = .finish → InSync cfg (fotaPrepare f i).2 :=
    fun hs => Idle.fotaPrepare ⟨h.toSettled, by rcases hs with hs | hs <;> rw [hs] <;> nofun,
      by rcases hs with hs | hs <;> rw [hs] <;> nofun⟩ i
  fun_cases Download.fotaDownload cfg f i
  case case1 hs _ =>
    have hretry : f.retry ≠ 0 := by simpa [stepOk, hs] using hok
    obtain ⟨io, hio⟩ := h.live (.inr ⟨hs, hretry⟩)
    exact (h.toSettled.setLive hio (s := .download) (by simp)).same rfl rfl
  case case2 hs _ _ => exact (hp (.inl hs)).eventCb .version .prepare
  case case3 hs _ _ _ => exact (hp (.inl hs)).same rfl rfl
  case case4 hs _ _ => exact (hp (.inr hs)).eventCb .version .prepare
  case case5 hs _ _ _ => exact (hp (.inr hs)).same rfl rfl
  case case6 => exact h

/-- Every step that meets the condition keeps the offsets together. -/
theorem step_inSync {act : Action} (hs : step cfg f act = some next) (hok : stepOk cfg f act = true)
    (hw : WaitsInDownload f) : InSync cfg next := by
  cases act with
  | task i => exact h.fotaTask hw hok hs
  | start task =>
    cases hs
    exact h.fotaStart task
  | stop =>
    cases hs
    exact h.same rfl rfl
  | doCheck =>
    cases hs
    exact h.fotaDoCheck
  | download i =>
    cases hs
    exact h.fotaDownload hok
  | restart delayMs timer =>
    cases hs
    exact h.fotaRestart delayMs timer
  | config retryCount autoCheckEn =>
    cases hs
    exact h.same rfl rfl
  | timer =>
    cases hs
    unfold timerThread
    split
    · exact (h.eventCb .restart .null).same rfl rfl
    · exact h
  | reset =>
    cases hs
    have hlog := h.toSettled.note (e := .reset) fun _ _ => nofun
    exact Idle.inSync ⟨⟨h.sound, h.kv, hlog.verified⟩, nofun, nofun⟩

/-- Every such run stays in step. -/
theorem run_inSync {acts : List Action} (hr : run cfg acts f = some next)
    (hok : runOk cfg acts f = true) (hw : WaitsInDownload f) : InSync cfg next := by
  induction acts generalizing f with
  | nil =>
    cases hr
    exact h
  | cons act acts ih =>
    obtain ⟨mid, hs, hrest⟩ := Option.bind_eq_some_iff.mp hr
    simp only [runOk, hs, Bool.and_eq_true] at hok
    exact ih (step_inSync h hs hok.1 hw) hrest hok.2 (step_waits hw hs)

end

end Steps

/-- A fresh task is in step. -/
theorem fresh_inSync (cfg : Setup) : InSync cfg fresh :=
  Idle.inSync ⟨⟨nofun, nofun, nofun⟩, nofun, nofun⟩

/-- In every run whose steps keep the offsets together, the bytes accepted when
`fota_data_verify` is called are the source, each at its offset. -/
theorem run_stores_source (cfg : Setup) (acts : List Action) (f : Fota)
    (hr : run cfg acts fresh = some f) (hok : runOk cfg acts fresh = true) (ret : ℤ)
    (stored : ℕ → Option UInt8) (hmem : Event.verify ret stored ∈ f.log) (n : ℕ) :
    stored n = cfg.source[n]? :=
  (run_inSync (fresh_inSync cfg) hr hok nofun).verified ret stored hmem n

/-- Three bytes come in at once, and the destination takes them all. -/
def wholeActs : List Action := sampleActs [granted [3] .whole 0, granted [] .whole 0]

/-- The destination takes only the first of them. -/
def shortActs : List Action := sampleActs [granted [3] (.short 1) 0, granted [] .whole 0]

/-- What the last verification of a log was made over, at one offset. -/
def verifiedAt (n : ℕ) : List Event → Option (Option UInt8)
  | [] => none
  | .verify _ stored :: _ => some (stored n)
  | _ :: log => verifiedAt n log

/-- What was verified is in the log. -/
theorem mem_of_verifiedAt {b : Option UInt8} {log : List Event} (h : verifiedAt n log = some b)
    : ∃ ret stored, Event.verify ret stored ∈ log ∧ stored n = b := by
  induction log with
  | nil => cases h
  | cons e log ih =>
    unfold verifiedAt at h
    split at h
    · contradiction
    · rename_i ret stored _ heq
      cases heq
      exact ⟨ret, stored, mem_cons_self, Option.some.inj h⟩
    · rename_i heq
      cases heq
      obtain ⟨ret, stored, hmem, hn⟩ := ih h
      exact ⟨ret, stored, mem_cons_of_mem _ hmem, hn⟩

theorem run_stores_source_sample : ∃ f ret stored,
    run (sampleSetup [1, 2, 3]) wholeActs fresh = some f ∧ Event.verify ret stored ∈ f.log ∧
      ∀ n, stored n = [(1 : UInt8), 2, 3][n]? := by
  obtain ⟨f, hr, hf⟩ : ∃ f, run (sampleSetup [1, 2, 3]) wholeActs fresh = some f ∧
      verifiedAt 0 f.log = some (some 1) := by decide +kernel
  obtain ⟨ret, stored, hmem, -⟩ := mem_of_verifiedAt hf
  exact ⟨f, ret, stored, hr, hmem, run_stores_source (sampleSetup [1, 2, 3]) wholeActs f hr
    (by decide +kernel) ret stored hmem⟩

/-- One short write, and the verification is made over a destination that lacks the
second byte. -/
theorem run_leaves_gap : ∃ f ret stored,
    run (sampleSetup [1, 2, 3]) shortActs fresh = some f ∧ Event.verify ret stored ∈ f.log ∧
      stored 1 ≠ [(1 : UInt8), 2, 3][1]? := by
  obtain ⟨f, hr, hf⟩ : ∃ f, run (sampleSetup [1, 2, 3]) shortActs fresh = some f ∧
      verifiedAt 1 f.log = some none := by decide +kernel
  obtain ⟨ret, stored, hmem, hnone⟩ := mem_of_verifiedAt hf
  exact ⟨f, ret, stored, hr, hmem, by rw [hnone]; nofun⟩

end PineVoice.Download
