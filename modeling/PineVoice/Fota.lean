import Mathlib.Data.Nat.Basic
import Mathlib.Data.List.Basic

/-!
# The firmware download task

The model of `fota_task` and of the calls that drive it, over the HTTP source of `httpc.c` and a
destination netio. The task is cut where it can block: at the top of its loop and at its two
semaphore waits. Every answer of the surroundings is an input. A reset clears the RAM; the stored
offset and the destination stay.
-/

namespace PineVoice.Download

/-- `fota_status_e`; `none` is the zero of a service that is not started. -/
inductive Status where
  | none
  | init
  | download
  | abort
  | finish
deriving DecidableEq

/-- `fota_event_e`. -/
inductive EventId where
  | start
  | version
  | progress
  | fail
  | verify
  | finish
  | quit
  | restart
deriving DecidableEq

/-- `fota_error_code_e`. -/
inductive ErrorCode where
  | null
  | versionCheck
  | prepare
  | netSeek
  | netRead
  | write
  | malloc
  | verify
deriving DecidableEq

/-- What an observer sees of a service. -/
inductive Event where
  /-- `fota_prepare` succeeded: a download begins. -/
  | begin
  /-- `fota_data_verify` returned, over these bytes of the destination. -/
  | verify (ret : ℤ) (stored : ℕ → Option UInt8)
  /-- The `finish` hook of the update class. -/
  | finishHook
  /-- The `fail` hook of the update class. -/
  | failHook
  /-- The `restart` hook of the update class. -/
  | restartHook
  /-- The status is set. -/
  | status (s : Status)
  /-- The event callback. -/
  | event (id : EventId) (code : ErrorCode)
  /-- `fota_restart` went past its check of the status. -/
  | restart
  /-- The device was reset. -/
  | reset

/-- What a service is built with and opened on. -/
structure Setup where
  /-- The bytes that the HTTP server serves. -/
  source : List UInt8
  /-- `CONFIG_FOTA_BUFFER_SIZE`. -/
  bufferSize : ℕ
  /-- The buffer holds something. -/
  buffer_pos : 0 < bufferSize
  /-- Whether the update class has a `version_check` hook. -/
  versionCheck : Bool
  /-- Whether the update class has a `finish` hook. -/
  finish : Bool
  /-- Whether the update class has a `fail` hook. -/
  fail : Bool
  /-- Whether the update class has a `restart` hook. -/
  restart : Bool
  /-- Whether an event callback was given. -/
  eventCb : Bool

/-- The HTTP netio. -/
structure HttpIo where
  /-- The offset of the next read. -/
  offset : ℕ
  /-- The length of the source, known once connected. -/
  size : ℕ
  /-- The connected client: the offset of the next byte that it returns. -/
  client : Option ℕ
deriving DecidableEq

/-- What the connecting part of `http_read` meets. -/
inductive Connect where
  /-- The server answers with the range asked for. -/
  | ok
  /-- No client, no connection, or an answer other than 206. -/
  | fail
  /-- An allocation fails. -/
  | nomem

/-- What `ret` is at the label `exit`. -/
def Connect.ret : Connect → ℤ
  | .ok => 0
  | .fail => -1
  | .nomem => -12

/-- The answers to one `http_read`. -/
structure HttpInput where
  /-- Whether connecting works. -/
  connect : Connect
  /-- What the calls of `http_client_read` are answered with, up to the timeout: an
  error code, or the number of bytes that have come in. -/
  reads : List ℤ

/-- The loop of `http_read` from `readLen` bytes read with the client at `pos`: what
it returns and where it leaves the client. -/
def readLoop (source : List UInt8) (length : ℕ) : List ℤ → ℕ → ℕ → ℤ × ℕ
  | [], readLen, pos => (readLen, pos)
  | r :: reads, readLen, pos =>
    if length ≤ readLen then (readLen, pos)
    else if r < 0 then (r, pos)
    else
      let dataRead := min r.toNat (min (length-readLen) (source.length-pos))
      if dataRead = 0 then (readLen, pos)
      else readLoop source length reads (readLen+dataRead) (pos+dataRead)

/-- The part of `http_read` behind the connection. -/
def httpReadBody (cfg : Setup) (io : HttpIo) (pos : ℕ) (reads : List ℤ) :
    ℤ × List UInt8 × HttpIo :=
  if io.size ≤ io.offset then (0, [], io)
  else
    let r := readLoop cfg.source cfg.bufferSize reads 0 pos
    let io := { io with client := some r.2 }
    if r.1 < 0 then (r.1, [], io)
    else (r.1, (cfg.source.drop pos).take r.1.toNat, { io with offset := io.offset+r.1.toNat })

/-- `http_read`: its result, the bytes in the buffer, and the netio. The client that
it connects asks for the range from the offset on. -/
def httpRead (cfg : Setup) (io : HttpIo) (i : HttpInput) : ℤ × List UInt8 × HttpIo :=
  match io.client with
  | some pos => httpReadBody cfg io pos i.reads
  | none =>
    if i.connect.ret ≠ 0 then (i.connect.ret, [], io)
    else
      httpReadBody cfg { io with size := cfg.source.length-io.offset+io.offset,
                                 client := some io.offset } io.offset i.reads

/-- Where the task stands. -/
inductive Pc where
  /-- Created, and not run yet. -/
  | entry
  /-- At the top of the loop. -/
  | top
  /-- Waiting for `do_check_event`. -/
  | initWait
  /-- Waiting for `sem_download`. -/
  | downloadWait
  /-- There is no task. -/
  | gone
deriving DecidableEq

/-- `fota_t` with the local state of its task, and what survives a reset. -/
structure Fota where
  /-- `status`. -/
  status : Status
  /-- `quit`. -/
  quit : Bool
  /-- Where the task stands. -/
  pc : Pc
  /-- The local `retry` of the task. -/
  retry : ℤ
  /-- `config.retry_count`. -/
  retryCount : ℤ
  /-- `config.auto_check_en`. -/
  autoCheckEn : ℤ
  /-- Whether `from_path` is set. -/
  fromPath : Bool
  /-- `from`. -/
  fromIo : Option HttpIo
  /-- `to`, by its offset. -/
  toIo : Option ℕ
  /-- `offset`. -/
  offset : ℕ
  /-- `total_size`. -/
  totalSize : ℕ
  /-- The count of `do_check_event`. -/
  doCheckEvent : ℕ
  /-- The count of `sem_download`. -/
  semDownload : ℕ
  /-- Whether the restart timer runs. -/
  restartTimer : Bool
  /-- The value of `KV_FOTA_OFFSET`, if there is one. -/
  kvOffset : Option ℕ
  /-- The bytes that the destination accepted, each at its offset. -/
  stored : ℕ → Option UInt8
  /-- What happened so far, the latest first. -/
  log : List Event

/-- `fota_open`, over what the device holds. -/
def fotaOpen (kvOffset : Option ℕ) (stored : ℕ → Option UInt8) (log : List Event) : Fota where
  status := .none
  quit := false
  pc := .gone
  retry := 0
  retryCount := 0
  autoCheckEn := 0
  fromPath := false
  fromIo := none
  toIo := none
  offset := 0
  totalSize := 0
  doCheckEvent := 0
  semDownload := 0
  restartTimer := false
  kvOffset := kvOffset
  stored := stored
  log := log

/-- The device before the first download. -/
def fresh : Fota := fotaOpen none (fun _ => none) []

section Notes

variable (cfg : Setup) (f : Fota)

/-- Something happens. -/
def note (e : Event) : Fota := { f with log := e :: f.log }

/-- The event callback, if there is one. -/
def eventCb (id : EventId) (code : ErrorCode) : Fota :=
  if cfg.eventCb then note f (.event id code) else f

/-- The status is set. -/
def setStatus (s : Status) : Fota := note { f with status := s } (.status s)

/-- `fota_release`, and the end of `fota_prepare` at the label `error`. -/
def fotaRelease : Fota := { f with fromIo := none, toIo := none }

/-- `fota_finish`. -/
def fotaFinish : Fota := if cfg.finish then note f .finishHook else f

/-- `fota_fail`. -/
def fotaFail : Fota := if cfg.fail then note f .failHook else f

end Notes

/-- The answers to one `fota_prepare`. -/
structure PrepareInput where
  /-- Whether the buffer is allocated. -/
  buffer : Bool
  /-- Whether the source opens. -/
  fromOpen : Bool
  /-- Whether the destination opens. -/
  toOpen : Bool
  /-- Whether a stored offset can be read. -/
  kvGet : Bool
  /-- Whether the first offset can be stored. -/
  kvSet : Bool
  /-- Whether the destination can be positioned. -/
  toSeek : Bool
  /-- Whether the offset can be reset after that failed. -/
  kvReset : Bool

/-- Both netios are open at the offset. -/
def openAt (f : Fota) : Fota :=
  { f with fromIo := some ⟨f.offset, 0, none⟩, toIo := some f.offset, totalSize := 0 }

/-- `fota_prepare` from the offset on: the source always takes it, as `http_seek`
only records it. -/
def prepareSeek (f : Fota) (i : PrepareInput) : ℤ × Fota :=
  if i.toSeek then (0, setStatus (note (openAt f) .begin) .download)
  else if i.kvReset then (-1, fotaRelease { f with kvOffset := some 0, offset := 0 })
  else (-1, fotaRelease f)

/-- `fota_prepare`. -/
def fotaPrepare (f : Fota) (i : PrepareInput) : ℤ × Fota :=
  if !f.fromPath then (-22, f)
  else if !(i.buffer && i.fromOpen && i.toOpen) then (-1, fotaRelease f)
  else
    match if i.kvGet then f.kvOffset else none with
    | some n => prepareSeek { f with offset := n } i
    | none =>
      if i.kvSet then prepareSeek { f with kvOffset := some 0, offset := 0 } i
      else (-1, fotaRelease f)

/-- How `netio_write` takes a chunk. -/
inductive Write where
  /-- All of it. -/
  | whole
  /-- At most so many bytes. -/
  | short (n : ℕ)
  /-- An error. -/
  | fail

/-- The bytes of the chunk that are taken; their number is what `netio_write` returns
if it is positive. -/
def Write.taken (chunk : List UInt8) : Write → List UInt8
  | .whole => chunk
  | .short n => chunk.take n
  | .fail => []

/-- The answers that one round of the task can ask for. -/
structure Input where
  /-- What the `version_check` hook returns. -/
  versionCheck : ℤ
  /-- Whether the URL is copied. -/
  urlCopied : Bool
  /-- The answers to `fota_prepare`. -/
  prepare : PrepareInput
  /-- The answers to `netio_read`. -/
  http : HttpInput
  /-- What `fota_data_verify` returns. -/
  verify : ℤ
  /-- Whether the stored offset is deleted. -/
  kvDel : Bool
  /-- What `netio_write` does. -/
  write : Write
  /-- Whether the new offset is stored. -/
  kvSet : Bool

section Task

variable (cfg : Setup) (f : Fota)

/-- `fota_version_check`. -/
def fotaVersionCheck (i : Input) : ℤ × Fota :=
  if cfg.versionCheck && i.versionCheck = 0 then (0, { f with fromPath := i.urlCopied })
  else (-1, f)

/-- The end of the task. -/
def taskQuit : Fota :=
  eventCb cfg (fotaRelease (setStatus { f with pc := .gone } .none)) .quit .null

/-- The signal of `do_check_event` under `auto_check_en`. -/
def autoCheck : Fota :=
  if 0 < f.autoCheckEn then { f with doCheckEvent := f.doCheckEvent+1 } else f

/-- The branch `FOTA_ABORT`. -/
def abortRound : Fota :=
  if f.retry ≠ 0 then
    let f := setStatus { f with retry := f.retry-1 } .download
    { f with semDownload := f.semDownload+1 }
  else
    autoCheck (setStatus (fotaRelease (fotaFail cfg { f with retry := f.retryCount })) .init)

/-- The version check and what follows it under `FOTA_INIT`. -/
def initCheck (i : Input) : Fota :=
  let v := fotaVersionCheck cfg f i
  if v.1 = 0 then
    let f := eventCb cfg v.2 .version .null
    if 0 < f.autoCheckEn then
      let p := fotaPrepare f i.prepare
      if p.1 < 0 then eventCb cfg p.2 .version .prepare else p.2
    else f
  else eventCb cfg v.2 .version .versionCheck

/-- The branch `FOTA_INIT` behind its wait. -/
def initRound (i : Input) : Fota :=
  if f.quit then taskQuit cfg f
  else if f.status = .download then { f with pc := .top }
  else
    let f := initCheck cfg (eventCb cfg { f with pc := .top, retry := f.retryCount }
      .start .null) i
    if 0 < f.autoCheckEn then
      if f.status = .download then { f with semDownload := f.semDownload+1 }
      else { f with doCheckEvent := f.doCheckEvent+1 }
    else f

/-- `fota_restart` once the status is `FOTA_FINISH`. -/
def restartBody (delayMs : ℤ) (timer : Bool) : Fota :=
  let f := note f .restart
  if cfg.restart then
    if 0 < delayMs then { f with restartTimer := f.restartTimer || timer }
    else if delayMs = 0 then eventCb cfg (note f .restartHook) .restart .null
    else note f .restartHook
  else f

/-- `fota_restart`. -/
def fotaRestart (delayMs : ℤ) (timer : Bool) : Fota :=
  if f.status ≠ .finish then f else restartBody cfg f delayMs timer

/-- The stored offset is deleted, or stays. -/
def deleteOffset (kvDel : Bool) : Fota :=
  { f with kvOffset := if kvDel then none else f.kvOffset }

/-- The end of a download, when `netio_read` returned 0. -/
def downloadEnd (i : Input) : Fota :=
  let f := note (eventCb cfg f .verify .null) (.verify i.verify f.stored)
  let f := deleteOffset (fotaRelease (fotaFinish cfg f)) i.kvDel
  if i.verify ≠ 0 then autoCheck (setStatus (eventCb cfg f .progress .verify) .init)
  else
    let f := eventCb cfg (setStatus f .finish) .finish .null
    if 0 < f.autoCheckEn then fotaRestart cfg f 0 true else f

/-- The destination takes bytes at an offset. -/
def storeAt (stored : ℕ → Option UInt8) (offset : ℕ) (bytes : List UInt8) : ℕ → Option UInt8 :=
  fun n => if offset ≤ n ∧ n < offset+bytes.length then bytes[n-offset]? else stored n

/-- The destination accepts bytes. -/
def accept (toOffset : ℕ) (bytes : List UInt8) : Fota :=
  { f with toIo := some (toOffset+bytes.length), stored := storeAt f.stored toOffset bytes }

/-- The new offset is stored. -/
def storeOffset (size : ℕ) : Fota :=
  { f with kvOffset := some (f.offset+size), offset := f.offset+size }

/-- The label `write_err`. -/
def writeErr : Fota := setStatus (eventCb cfg f .progress .write) .abort

/-- `netio_write` and what follows it. -/
def downloadWrite (toOffset : ℕ) (chunk : List UInt8) (i : Input) : Fota :=
  let taken := i.write.taken chunk
  if 0 < taken.length then
    let f := accept f toOffset taken
    if i.kvSet then
      let f := eventCb cfg (storeOffset f taken.length) .progress .null
      { f with semDownload := f.semDownload+1 }
    else writeErr cfg f
  else writeErr cfg f

/-- `netio_read` returned; the task is on its way to the top of the loop. -/
def afterRead (io : HttpIo) : Fota :=
  { f with pc := .top, fromIo := some io, totalSize := io.size }

/-- The branch `FOTA_DOWNLOAD` behind its wait. -/
def downloadRound (io : HttpIo) (toOffset : ℕ) (i : Input) : Fota :=
  if f.quit then taskQuit cfg f
  else
    let r := httpRead cfg io i.http
    let f := afterRead f r.2.2
    if r.1 < 0 then
      if r.1 = -2 then { f with semDownload := f.semDownload+1 }
      else setStatus (eventCb cfg f .progress .netRead) .abort
    else if r.1 = 0 then downloadEnd cfg f i
    else downloadWrite cfg f toOffset r.2.1 i

/-- The top of the loop. -/
def taskTop : Fota :=
  if f.quit then taskQuit cfg f
  else
    match f.status with
    | .init => { f with pc := .initWait }
    | .download => { f with pc := .downloadWait }
    | .abort => abortRound cfg f
    | .finish => f
    | .none => f

/-- `fota_task` from one point where it can block to the next; nothing if it stays
blocked or has no netio to use. -/
def fotaTask (i : Input) : Option Fota :=
  match f.pc with
  | .entry => some { f with pc := .top, retry := f.retryCount }
  | .top => some (taskTop cfg f)
  | .initWait =>
    if f.doCheckEvent = 0 then none
    else some (initRound cfg { f with doCheckEvent := f.doCheckEvent-1 } i)
  | .downloadWait =>
    if f.semDownload = 0 then none
    else
      f.fromIo.bind fun io => f.toIo.map fun toOffset =>
        downloadRound cfg { f with semDownload := f.semDownload-1 } io toOffset i
  | .gone => none

end Task

section Calls

variable (cfg : Setup) (f : Fota)

/-- `fota_do_check`. -/
def fotaDoCheck : Fota :=
  if f.status = .init ∨ f.status = .finish then
    let f := setStatus f .init
    { f with doCheckEvent := f.doCheckEvent+1 }
  else f

/-- `fota_start`; the task may not be created. -/
def fotaStart (task : Bool) : Fota :=
  if f.status = .none then
    let f := setStatus { f with quit := false } .init
    if task then
      let f := { f with pc := .entry }
      if 0 < f.autoCheckEn then fotaDoCheck f else f
    else setStatus { f with quit := true } .none
  else f

/-- `fota_stop`. -/
def fotaStop : Fota :=
  { f with quit := true, doCheckEvent := f.doCheckEvent+1, semDownload := f.semDownload+1 }

/-- `fota_download`. -/
def fotaDownload (i : PrepareInput) : Fota :=
  match f.status with
  | .abort =>
    let f := setStatus f .download
    { f with semDownload := f.semDownload+1 }
  | .init | .finish =>
    let p := fotaPrepare f i
    if p.1 ≠ 0 then eventCb cfg p.2 .version .prepare
    else { p.2 with doCheckEvent := p.2.doCheckEvent+1, semDownload := p.2.semDownload+1 }
  | _ => f

/-- `timer_thread`. -/
def timerThread : Fota :=
  if f.restartTimer then { eventCb cfg f .restart .null with restartTimer := false } else f

end Calls

/-- What can happen to a service. -/
inductive Action where
  /-- The task runs up to the next point where it can block. -/
  | task (i : Input)
  /-- `fota_start`. -/
  | start (task : Bool)
  /-- `fota_stop`. -/
  | stop
  /-- `fota_do_check`. -/
  | doCheck
  /-- `fota_download`. -/
  | download (i : PrepareInput)
  /-- `fota_restart`. -/
  | restart (delayMs : ℤ) (timer : Bool)
  /-- `fota_config`, by the two values that the task reads. -/
  | config (retryCount autoCheckEn : ℤ)
  /-- The restart timer runs out. -/
  | timer
  /-- The device is reset and the service opened again. -/
  | reset

/-- One action. A power cut inside a round of the task leaves on the device what
some round with refused stores leaves there. -/
def step (cfg : Setup) (f : Fota) : Action → Option Fota
  | .task i => fotaTask cfg f i
  | .start task => some (fotaStart f task)
  | .stop => some (fotaStop f)
  | .doCheck => some (fotaDoCheck f)
  | .download i => some (fotaDownload cfg f i)
  | .restart delayMs timer => some (fotaRestart cfg f delayMs timer)
  | .config retryCount autoCheckEn =>
    some { f with retryCount := retryCount, autoCheckEn := autoCheckEn }
  | .timer => some (timerThread cfg f)
  | .reset => some (fotaOpen f.kvOffset f.stored (.reset :: f.log))

/-- A list of actions. -/
def run (cfg : Setup) : List Action → Fota → Option Fota
  | [], f => some f
  | act :: acts, f => (step cfg f act).bind (run cfg acts)

/-- What holds before a run and is kept by its steps holds after it. -/
theorem run_keeps {cfg : Setup} {P : Fota → Prop}
    (hstep : ∀ f act next, step cfg f act = some next → P f → P next) {acts : List Action}
    {f next : Fota} (hr : run cfg acts f = some next) (h : P f) : P next := by
  induction acts generalizing f with
  | nil =>
    cases hr
    exact h
  | cons act acts ih =>
    obtain ⟨mid, hs, hrest⟩ := Option.bind_eq_some_iff.mp hr
    exact ih hrest (hstep f act mid hs h)

section Samples

/-- A service with all hooks and a buffer of four bytes. -/
def sampleSetup (source : List UInt8) : Setup where
  source := source
  bufferSize := 4
  buffer_pos := by decide
  versionCheck := true
  finish := true
  fail := true
  restart := true
  eventCb := true

/-- Nothing fails, with these answers to the reads, the write and the verification. -/
def granted (reads : List ℤ) (write : Write) (verify : ℤ) : Input where
  versionCheck := 0
  urlCopied := true
  prepare := ⟨true, true, true, true, true, true, true⟩
  http := ⟨.ok, reads⟩
  verify := verify
  kvDel := true
  write := write
  kvSet := true

/-- A service is started and told to download, and its task makes these rounds. -/
def sampleActs (rounds : List Input) : List Action :=
  let idle := granted [] .whole 0
  [.start true, .task idle, .task idle, .doCheck, .task idle, .download idle.prepare] ++
    rounds.flatMap fun i => [.task idle, .task i]

end Samples

section Waiting

variable (cfg : Setup) (f : Fota)

/-- The task waits to read only while it downloads. -/
def WaitsInDownload : Prop := f.pc = .downloadWait → f.status = .download

/-- A note does not move the task. -/
@[simp] theorem note_pc (e : Event) : (note f e).pc = f.pc := rfl

/-- Nor does a status. -/
@[simp] theorem setStatus_pc (s : Status) : (setStatus f s).pc = f.pc := rfl

/-- Nor does the release of the buffers. -/
@[simp] theorem fotaRelease_pc : (fotaRelease f).pc = f.pc := rfl

/-- Nor does an event. -/
@[simp] theorem eventCb_pc (id : EventId) (code : ErrorCode) :
    (eventCb cfg f id code).pc = f.pc := by
  unfold eventCb
  split <;> rfl

/-- An event leaves the status. -/
@[simp] theorem eventCb_status (id : EventId) (code : ErrorCode) :
    (eventCb cfg f id code).status = f.status := by
  unfold eventCb
  split <;> rfl

/-- The next check is only asked for. -/
@[simp] theorem autoCheck_pc : (autoCheck f).pc = f.pc := by
  unfold autoCheck
  split <;> rfl

/-- The task ends. -/
theorem taskQuit_pc : (taskQuit cfg f).pc = .gone := eventCb_pc cfg _ _ _

/-- An abort does not end the task. -/
theorem abortRound_pc : (abortRound cfg f).pc = f.pc := by
  simp [abortRound, fotaFail, apply_ite Fota.pc]

/-- A seek does not move the task. -/
theorem prepareSeek_pc (i : PrepareInput) : (prepareSeek f i).2.pc = f.pc := by
  fun_cases prepareSeek f i <;> rfl

/-- Nor does the preparation. -/
@[simp] theorem fotaPrepare_pc (i : PrepareInput) : (fotaPrepare f i).2.pc = f.pc := by
  fun_cases fotaPrepare f i <;> first | rfl | exact prepareSeek_pc _ i

/-- Nor does the version check. -/
@[simp] theorem initCheck_pc (i : Input) : (initCheck cfg f i).pc = f.pc := by
  have hv : (fotaVersionCheck cfg f i).2.pc = f.pc := by
    unfold fotaVersionCheck
    split <;> rfl
  simp [initCheck, apply_ite Fota.pc, hv]

/-- A round of checking ends at the top of the loop, or the task ends. -/
theorem initRound_pc (i : Input) :
    (initRound cfg f i).pc = .gone ∨ (initRound cfg f i).pc = .top := by
  simp only [initRound]
  split_ifs <;> simp [taskQuit_pc]

/-- A restart is only asked for. -/
@[simp] theorem fotaRestart_pc (delayMs : ℤ) (timer : Bool) :
    (fotaRestart cfg f delayMs timer).pc = f.pc := by
  simp [fotaRestart, restartBody, apply_ite Fota.pc]

/-- The status stays until then. -/
@[simp] theorem fotaRestart_status (delayMs : ℤ) (timer : Bool) :
    (fotaRestart cfg f delayMs timer).status = f.status := by
  simp [fotaRestart, restartBody, note, apply_ite Fota.status]

/-- The end of a download does not move the task. -/
theorem downloadEnd_pc (i : Input) : (downloadEnd cfg f i).pc = f.pc := by
  simp [downloadEnd, deleteOffset, fotaFinish, apply_ite Fota.pc]

/-- Nor does a write. -/
theorem downloadWrite_pc (toOffset : ℕ) (chunk : List UInt8) (i : Input) :
    (downloadWrite cfg f toOffset chunk i).pc = f.pc := by
  simp [downloadWrite, writeErr, storeOffset, accept, apply_ite Fota.pc]

/-- A round of the download ends at the top of the loop, or the task ends. -/
theorem downloadRound_pc (io : HttpIo) (toOffset : ℕ) (i : Input) :
    (downloadRound cfg f io toOffset i).pc = .gone ∨
      (downloadRound cfg f io toOffset i).pc = .top := by
  simp only [downloadRound]
  split_ifs <;> simp [taskQuit_pc, afterRead, downloadEnd_pc, downloadWrite_pc]

variable {cfg f}

/-- A turn of the task ends like that. -/
theorem fotaTask_waits {i : Input} {next : Fota} (hs : fotaTask cfg f i = some next) :
    WaitsInDownload next := by
  have hpc : ∀ g : Fota, g.pc = .gone ∨ g.pc = .top → WaitsInDownload g :=
    fun g hg hw => by rcases hg with hg | hg <;> cases hg.symm.trans hw
  unfold fotaTask at hs
  split at hs
  · cases hs
    exact nofun
  · rename_i htop
    cases hs
    unfold taskTop
    split
    · exact hpc _ (.inl (taskQuit_pc cfg f))
    · split
      · exact nofun
      · exact fun _ => ‹_›
      · exact hpc _ (.inr ((abortRound_pc cfg f).trans htop))
      · exact hpc _ (.inr htop)
      · exact hpc _ (.inr htop)
  · split at hs
    · cases hs
    · cases hs
      exact hpc _ (initRound_pc cfg _ i)
  · split at hs
    · cases hs
    · obtain ⟨io, hio, hs⟩ := Option.bind_eq_some_iff.mp hs
      obtain ⟨toOffset, hto, hs⟩ := Option.map_eq_some_iff.mp hs
      rw [← hs]
      exact hpc _ (downloadRound_pc cfg _ io toOffset i)
  · cases hs

section

variable (h : WaitsInDownload f)
include h

/-- A check that is asked for keeps this. -/
theorem fotaDoCheck_waits : WaitsInDownload (fotaDoCheck f) := by
  unfold fotaDoCheck
  split
  · rename_i hs
    intro hw
    rw [h hw] at hs
    rcases hs with hs | hs <;> cases hs
  · exact h

/-- So does a start. -/
theorem fotaStart_waits (task : Bool) : WaitsInDownload (fotaStart f task) := by
  fun_cases fotaStart f task
  case case1 => exact fotaDoCheck_waits nofun
  case case2 => exact nofun
  case case3 hs _ _ => exact fun hw => nomatch hs.symm.trans (h hw)
  case case4 => exact h

/-- So does a download that is asked for. -/
theorem fotaDownload_waits (i : PrepareInput) : WaitsInDownload (fotaDownload cfg f i) := by
  have hprep : f.status ≠ .download → WaitsInDownload (fotaPrepare f i).2 := fun hs hw =>
    absurd (h ((fotaPrepare_pc f i).symm.trans hw)) hs
  fun_cases fotaDownload cfg f i
  case case1 => exact fun _ => rfl
  case case6 => exact h
  all_goals simpa +zetaDelta [WaitsInDownload] using hprep (by simp [*])

/-- So does a restart. -/
theorem fotaRestart_waits (delayMs : ℤ) (timer : Bool) :
    WaitsInDownload (fotaRestart cfg f delayMs timer) := by
  simpa [WaitsInDownload] using h

/-- So does the thread of the timer. -/
theorem timerThread_waits : WaitsInDownload (timerThread cfg f) := by
  unfold timerThread
  split
  · simpa [WaitsInDownload] using h
  · exact h

/-- Every step keeps it. -/
theorem step_waits {act : Action} {next : Fota} (hs : step cfg f act = some next) :
    WaitsInDownload next := by
  cases act with
  | task i => exact fotaTask_waits hs
  | start task =>
    cases hs
    exact fotaStart_waits h task
  | stop =>
    cases hs
    exact h
  | doCheck =>
    cases hs
    exact fotaDoCheck_waits h
  | download i =>
    cases hs
    exact fotaDownload_waits h i
  | restart delayMs timer =>
    cases hs
    exact fotaRestart_waits h delayMs timer
  | config retryCount autoCheckEn =>
    cases hs
    exact h
  | timer =>
    cases hs
    exact timerThread_waits h
  | reset =>
    cases hs
    exact nofun

end

end Waiting

end PineVoice.Download
