import PineVoice.Fota
import PineVoice.Transition

/-!
# What follows a verification

The log of a run is read backwards. A download counts as verified if the last of its beginning, a
reset and a verification was a verification that returned 0. `FOTA_FINISH`, its event and a
restart only follow a verified download; the `finish` hook does not look at the verification.
-/

namespace PineVoice.Download

open List

/-- Whether the download at hand was verified with result 0. -/
def verified : List Event → Bool
  | [] => false
  | .verify ret _ :: _ => ret = 0
  | .begin :: _ => false
  | .reset :: _ => false
  | _ :: log => verified log

/-- The `finish` hook. -/
def Event.isFinishHook : Event → Bool
  | .finishHook => true
  | _ => false

/-- `FOTA_FINISH`, its event, and an accepted restart with its hook. -/
def Event.completes : Event → Bool
  | .status .finish => true
  | .event .finish _ => true
  | .restart => true
  | .restartHook => true
  | _ => false

/-- Everything that is to happen to a verified download only. -/
def Event.finishes (e : Event) : Bool := e.isFinishHook || e.completes

/-- The events of a kind happened to verified downloads only. -/
def AfterVerify (kind : Event → Bool) : List Event → Prop
  | [] => True
  | e :: log => (kind e = true → verified log = true) ∧ AfterVerify kind log

instance AfterVerify.decidable (kind : Event → Bool) :
    (log : List Event) → Decidable (AfterVerify kind log)
  | [] => isTrue trivial
  | e :: log =>
    haveI := AfterVerify.decidable kind log
    inferInstanceAs (Decidable ((kind e = true → verified log = true) ∧ AfterVerify kind log))

/-- The hook and the completions are looked at one by one. -/
theorem afterVerify_finishes (log : List Event) :
    AfterVerify Event.finishes log ↔
      AfterVerify Event.isFinishHook log ∧ AfterVerify Event.completes log := by
  induction log with
  | nil => simp [AfterVerify]
  | cons e log ih =>
    simp only [AfterVerify, ih, Event.finishes, Bool.or_eq_true, or_imp]
    exact and_and_and_comm

variable {e : Event} {log : List Event} {g next : Fota}

/-- Other events need no verification. -/
theorem afterVerify_cons {kind : Event → Bool} (h : kind e = false)
    : AfterVerify kind (e :: log) ↔ AfterVerify kind log := by
  simp [AfterVerify, h]

/-- Events that neither finish nor verify anything. -/
def Event.quiet : Event → Bool
  | .verify _ _ => false
  | e => !e.finishes

/-- Every verification so far returned 0. -/
def AllVerified (log : List Event) : Prop :=
  ∀ ret stored, Event.verify ret stored ∈ log → ret = 0

/-- A quiet event is no failed verification. -/
theorem allVerified_cons_quiet (h : e.quiet = true) : AllVerified (e :: log) ↔ AllVerified log := by
  refine ⟨fun hall ret stored hmem => hall ret stored (mem_cons_of_mem _ hmem), ?_⟩
  intro hall ret stored hmem
  rcases List.mem_cons.mp hmem with rfl | hmem
  · exact absurd h (by simp [Event.quiet])
  · exact hall ret stored hmem

/-- A quiet event completes nothing. -/
theorem quiet_not_finishes (h : e.quiet = true) : e.isFinishHook = false ∧ e.completes = false := by
  cases e <;> simp_all [Event.quiet, Event.finishes]

/-- What is known of the log at every point of a run. -/
structure LogSound (cfg : Setup) (f : Fota) : Prop where
  /-- A finished download was verified. -/
  status : f.status = .finish → verified f.log = true
  /-- What completes an update happened to verified downloads. -/
  completes : AfterVerify Event.completes f.log
  /-- The hook was called once for each verification. -/
  hook : AfterVerify Event.isFinishHook f.log ↔ cfg.finish = false ∨ AllVerified f.log

/-- The part of a state that the events and the status are in. -/
def Fota.view (f : Fota) : List Event × Status := (f.log, f.status)

/-- Code that only adds quiet events, and neither finishes a download nor begins
one while it leaves the status `FOTA_FINISH`. -/
structure Quiet (v w : List Event × Status) : Prop where
  /-- The events that are added. -/
  log : ∃ new, w.1 = new ++ v.1 ∧ ∀ e ∈ new, e.quiet = true
  /-- A finished download was finished before, and is the same one. -/
  status : w.2 = .finish → v.2 = .finish ∧ verified w.1 = verified v.1

/-- Nothing happens. -/
theorem Quiet.refl (v : List Event × Status) : Quiet v v where
  log := ⟨[], rfl, nofun⟩
  status h := ⟨h, rfl⟩

/-- Quiet changes follow each other. -/
theorem Quiet.trans {u v w : List Event × Status} (huv : Quiet u v) (hvw : Quiet v w) :
    Quiet u w where
  log := by
    obtain ⟨new, hnew, hq⟩ := huv.log
    obtain ⟨more, hmore, hq'⟩ := hvw.log
    refine ⟨more ++ new, by rw [hmore, hnew, append_assoc], fun e he => ?_⟩
    exact (List.mem_append.mp he).elim (hq' e) (hq e)
  status h := by
    have hv := hvw.status h
    have hu := huv.status hv.1
    exact ⟨hu.1, hv.2.trans hu.2⟩

/-- A quiet event is noted. -/
theorem note_quiet {f : Fota} (hq : e.quiet = true) (hv : verified (e :: f.log) = verified f.log)
    : Quiet f.view (note f e).view where
  log := ⟨[e], rfl, by simp only [mem_singleton, forall_eq, hq]⟩
  status h := ⟨h, hv⟩

/-- An event other than the finish is quiet. -/
theorem eventCb_quiet (cfg : Setup) (f : Fota) (id : EventId) (code : ErrorCode)
    (hid : id ≠ .finish) : Quiet f.view (eventCb cfg f id code).view := by
  unfold eventCb
  split
  · exact note_quiet (by cases id <;> first | rfl | exact absurd rfl hid) rfl
  · exact .refl _

/-- So is a status other than the finish. -/
theorem setStatus_quiet (f : Fota) {s : Status} (hs : s ≠ .finish) :
    Quiet f.view (setStatus f s).view where
  log := ⟨[.status s], rfl, by
    intro e he
    rw [List.mem_singleton.mp he]
    cases s <;> first | rfl | exact absurd rfl hs⟩
  status h := absurd h hs

/-- Quiet code keeps what is known of the log. -/
theorem LogSound.quiet {cfg : Setup} {f : Fota} (h : LogSound cfg f) (hq : Quiet f.view g.view)
    : LogSound cfg g := by
  obtain ⟨new, hlog, hnew⟩ := hq.log
  have hadd : ∀ new : List Event, (∀ e ∈ new, e.quiet = true) →
      (AfterVerify Event.completes (new ++ f.log) ↔ AfterVerify Event.completes f.log) ∧
      (AfterVerify Event.isFinishHook (new ++ f.log) ↔ AfterVerify Event.isFinishHook f.log) ∧
      (AllVerified (new ++ f.log) ↔ AllVerified f.log) := by
    intro new
    induction new with
    | nil => exact fun _ => ⟨Iff.rfl, Iff.rfl, Iff.rfl⟩
    | cons e new ih =>
      intro hnew
      obtain ⟨hc, hf, hv⟩ := ih fun x hx => hnew x (mem_cons_of_mem _ hx)
      have he := hnew e mem_cons_self
      have hfin := quiet_not_finishes he
      exact ⟨(afterVerify_cons hfin.2).trans hc, (afterVerify_cons hfin.1).trans hf,
        (allVerified_cons_quiet he).trans hv⟩
  obtain ⟨hc, hf, hv⟩ := hadd new hnew
  replace hlog : g.log = new ++ f.log := hlog
  constructor
  · intro hs
    have hstat := hq.status hs
    exact hstat.2.trans (h.status hstat.1)
  · rw [hlog]
    exact hc.mpr h.completes
  · rw [hlog, hf, hv]
    exact h.hook

section Pieces

variable (cfg : Setup) (f : Fota)

/-- So is a check that is asked for. -/
theorem autoCheck_quiet : Quiet f.view (autoCheck f).view := by
  unfold autoCheck
  split <;> exact .refl _

/-- So is the end of the task. -/
theorem taskQuit_quiet : Quiet f.view (taskQuit cfg f).view :=
  (setStatus_quiet { f with pc := .gone } (s := .none) nofun).trans
    (eventCb_quiet cfg (fotaRelease (setStatus { f with pc := .gone } .none)) .quit .null nofun)

/-- So is a failure. -/
theorem fotaFail_quiet : Quiet f.view (fotaFail cfg f).view := by
  unfold fotaFail
  split
  · exact note_quiet rfl rfl
  · exact .refl _

/-- So is an aborted round. -/
theorem abortRound_quiet : Quiet f.view (abortRound cfg f).view := by
  unfold abortRound
  split
  · exact setStatus_quiet { f with retry := f.retry-1 } (s := .download) nofun
  · have hfail := fotaFail_quiet cfg { f with retry := f.retryCount }
    exact (hfail.trans (setStatus_quiet (fotaRelease (fotaFail cfg _)) (s := .init) nofun)).trans
      (autoCheck_quiet _)

theorem prepareSeek_quiet (i : PrepareInput) : Quiet f.view (prepareSeek f i).2.view := by
  unfold prepareSeek
  split
  · constructor
    · refine ⟨[.status .download, .begin], rfl, ?_⟩
      simp only [mem_cons, not_mem_nil, or_false, forall_eq_or_imp, forall_eq]
      exact ⟨rfl, rfl⟩
    · nofun
  · split <;> exact .refl _

/-- So is the preparation. -/
theorem fotaPrepare_quiet (i : PrepareInput) : Quiet f.view (fotaPrepare f i).2.view := by
  fun_cases fotaPrepare f i
  case case3 n _ => exact prepareSeek_quiet { f with offset := n } i
  case case4 => exact prepareSeek_quiet { f with kvOffset := some 0, offset := 0 } i
  all_goals exact .refl _

/-- So is the version check. -/
theorem fotaVersionCheck_quiet (i : Input) : Quiet f.view (fotaVersionCheck cfg f i).2.view := by
  unfold fotaVersionCheck
  split <;> exact .refl _

theorem initCheck_quiet (i : Input) : Quiet f.view (initCheck cfg f i).view := by
  have hv := fotaVersionCheck_quiet cfg f i
  have hok := hv.trans (eventCb_quiet cfg _ .version .null nofun)
  have hp := hok.trans (fotaPrepare_quiet _ i.prepare)
  fun_cases initCheck cfg f i
  · exact hp.trans (eventCb_quiet cfg _ .version .prepare (by simp))
  · exact hp
  · exact hok
  · exact hv.trans (eventCb_quiet cfg _ .version .versionCheck nofun)

/-- So is a round of checking. -/
theorem initRound_quiet (i : Input) : Quiet f.view (initRound cfg f i).view := by
  have hstart := eventCb_quiet cfg { f with pc := .top, retry := f.retryCount } .start .null nofun
  have hc := hstart.trans (initCheck_quiet cfg _ i)
  fun_cases initRound cfg f i
  · exact taskQuit_quiet cfg f
  · exact .refl _
  all_goals exact hc

/-- So is a failed write. -/
theorem writeErr_quiet : Quiet f.view (writeErr cfg f).view :=
  (eventCb_quiet cfg f .progress .write nofun).trans (setStatus_quiet _ (s := .abort) nofun)

/-- So is a write. -/
theorem downloadWrite_quiet (toOffset : ℕ) (chunk : List UInt8) (i : Input) :
    Quiet f.view (downloadWrite cfg f toOffset chunk i).view := by
  fun_cases downloadWrite cfg f toOffset chunk i
  · exact eventCb_quiet cfg (storeOffset (accept f toOffset _) _) .progress .null nofun
  · exact writeErr_quiet cfg (accept f toOffset _)
  · exact writeErr_quiet cfg f

/-- So is the top of the loop. -/
theorem taskTop_quiet : Quiet f.view (taskTop cfg f).view := by
  fun_cases taskTop cfg f
  case case1 => exact taskQuit_quiet cfg f
  case case4 => exact abortRound_quiet cfg f
  all_goals exact .refl _

theorem fotaDoCheck_quiet : Quiet f.view (fotaDoCheck f).view := by
  unfold fotaDoCheck
  split
  · exact setStatus_quiet f (s := .init) nofun
  · exact .refl _

theorem fotaStart_quiet (task : Bool) : Quiet f.view (fotaStart f task).view := by
  have hs := setStatus_quiet { f with quit := false } (s := .init) nofun
  fun_cases fotaStart f task
  · exact hs.trans (fotaDoCheck_quiet { setStatus { f with quit := false } .init with
      pc := .entry })
  · exact hs
  · exact hs.trans (setStatus_quiet { setStatus { f with quit := false } .init with
      quit := true } (s := .none) (by simp))
  · exact .refl _

/-- So is a download that is asked for. -/
theorem fotaDownload_quiet (i : PrepareInput) : Quiet f.view (fotaDownload cfg f i).view := by
  have hp := fotaPrepare_quiet f i
  fun_cases fotaDownload cfg f i
  case case1 => exact setStatus_quiet f (s := .download) (by simp)
  case case2 | case4 => exact hp.trans (eventCb_quiet cfg _ .version .prepare (by simp))
  case case3 | case5 => exact hp
  case case6 => exact .refl _

/-- So is the thread of the timer. -/
theorem timerThread_quiet : Quiet f.view (timerThread cfg f).view := by
  unfold timerThread
  split
  · exact eventCb_quiet cfg f .restart .null nofun
  · exact .refl _

end Pieces

variable {cfg : Setup} {f : Fota}

/-- An event of a verified download that completes the update. -/
theorem LogSound.note (h : LogSound cfg f) (hg : g.log = e :: f.log)
    (hhook : e.isFinishHook = false) (hv : verified f.log = true)
    (hkeep : verified (e :: f.log) = verified f.log) (hnot : ∀ ret stored, e ≠ .verify ret stored) :
    LogSound cfg g where
  status _ := by rw [hg, hkeep, hv]
  completes := by
    rw [hg]
    exact ⟨fun _ => hv, h.completes⟩
  hook := by
    have hall : AllVerified (e :: f.log) ↔ AllVerified f.log := by
      simp [AllVerified, (hnot _ _).symm]
    rw [hg, afterVerify_cons hhook, hall]
    exact h.hook

/-- Any event may follow a verification. -/
theorem LogSound.eventCb_verified (h : LogSound cfg f) (hv : verified f.log = true)
    (id : EventId) (code : ErrorCode) : LogSound cfg (eventCb cfg f id code) ∧
      verified (eventCb cfg f id code).log = true := by
  unfold eventCb
  split
  · exact ⟨h.note rfl rfl hv rfl fun _ _ => nofun, hv⟩
  · exact ⟨h, hv⟩

/-- A restart only follows a verified download. -/
theorem LogSound.fotaRestart (h : LogSound cfg f) (delayMs : ℤ) (timer : Bool) :
    LogSound cfg (fotaRestart cfg f delayMs timer) := by
  unfold Download.fotaRestart
  split
  · exact h
  · rename_i hs
    have hv := h.status (not_not.mp hs)
    have hr : LogSound cfg (Download.note f .restart) := h.note rfl rfl hv rfl fun _ _ => nofun
    have hh : LogSound cfg (Download.note (Download.note f .restart) .restartHook) :=
      hr.note rfl rfl hv rfl fun _ _ => nofun
    unfold restartBody
    dsimp only
    split
    · split
      · exact hr.quiet (.refl _)
      · split
        · exact (hh.eventCb_verified hv _ _).1
        · exact hh
    · exact hr

/-- The verification and the hook that follows it whatever was returned. -/
theorem LogSound.verify (h : LogSound cfg f) (hs : f.status = .download) (ret : ℤ)
    (stored : ℕ → Option UInt8) :
    LogSound cfg (fotaFinish cfg (Download.note f (.verify ret stored))) := by
  have hall : AllVerified (.verify ret stored :: f.log) ↔ ret = 0 ∧ AllVerified f.log := by
    refine ⟨fun hv => ⟨hv ret stored mem_cons_self, fun r d hmem =>
      hv r d (mem_cons_of_mem _ hmem)⟩, fun hv r d hmem => ?_⟩
    rcases List.mem_cons.mp hmem with he | hmem
    · cases he
      exact hv.1
    · exact hv.2 r d hmem
  unfold fotaFinish
  split
  · rename_i hfin
    have hmore : AllVerified (.finishHook :: .verify ret stored :: f.log) ↔
        AllVerified (.verify ret stored :: f.log) := by
      simp [AllVerified]
    constructor
    · intro hf
      cases hs.symm.trans hf
    · exact ⟨nofun, nofun, h.completes⟩
    · change AfterVerify _ (_ :: _ :: _) ↔ _ ∨ AllVerified (_ :: _ :: _)
      rw [hmore, hall]
      simp [AfterVerify, h.hook, hfin, Event.isFinishHook, verified]
  · rename_i hfin
    have hno : cfg.finish = false := Bool.not_eq_true _ ▸ hfin
    constructor
    · intro hf
      cases hs.symm.trans hf
    · exact ⟨nofun, h.completes⟩
    · have hhook := h.hook.mpr (.inl hno)
      exact ⟨fun _ => .inl hno, fun _ => ⟨nofun, hhook⟩⟩

/-- A verification that returned 0 is the last thing to happen. -/
theorem verified_fotaFinish (cfg : Setup) (f : Fota) (ret : ℤ) (stored : ℕ → Option UInt8)
    (h : ret = 0) :
    verified (fotaFinish cfg (Download.note f (.verify ret stored))).log = true := by
  unfold fotaFinish
  split <;> simp [Download.note, verified, h]

/-- The end of a download keeps the log sound. -/
theorem LogSound.downloadEnd (h : LogSound cfg f) (hs : f.status = .download) (i : Input) :
    LogSound cfg (downloadEnd cfg f i) := by
  have hcb := eventCb_quiet cfg f .verify .null nofun
  have hstat := (eventCb_status cfg f .verify .null).trans hs
  have hf := (h.quiet hcb).verify hstat i.verify f.stored
  have hver := verified_fotaFinish cfg (eventCb cfg f .verify .null) i.verify f.stored
  unfold Download.downloadEnd
  dsimp only
  generalize fotaFinish cfg (Download.note (eventCb cfg f .verify .null)
    (.verify i.verify f.stored)) = g at hf hver ⊢
  have hk : LogSound cfg (deleteOffset (fotaRelease g) i.kvDel) := hf.quiet (.refl _)
  split
  · exact hk.quiet (((eventCb_quiet cfg _ .progress .verify nofun).trans
      (setStatus_quiet _ (s := .init) nofun)).trans (autoCheck_quiet _))
  · rename_i hret
    have hv := hver (not_not.mp hret)
    have hset : LogSound cfg (setStatus (deleteOffset (fotaRelease g) i.kvDel) .finish) :=
      hk.note rfl rfl hv rfl fun _ _ => nofun
    have hend := (hset.eventCb_verified hv .finish .null).1
    split
    · exact hend.fotaRestart 0 true
    · exact hend

/-- So does a round of the download. -/
theorem LogSound.downloadRound (h : LogSound cfg f) (hs : f.status = .download) (io : HttpIo)
    (toOffset : ℕ) (i : Input) : LogSound cfg (downloadRound cfg f io toOffset i) := by
  have hr : LogSound cfg (afterRead f (httpRead cfg io i.http).2.2) := h.quiet (.refl _)
  fun_cases Download.downloadRound cfg f io toOffset i
  · exact h.quiet (taskQuit_quiet cfg f)
  · exact hr.quiet (.refl _)
  · exact hr.quiet ((eventCb_quiet cfg _ .progress .netRead nofun).trans
      (setStatus_quiet _ (s := .abort) nofun))
  · exact hr.downloadEnd hs i
  · exact hr.quiet (downloadWrite_quiet cfg _ toOffset _ i)

/-- So does the task. -/
theorem LogSound.fotaTask {i : Input} (h : LogSound cfg f) (hw : WaitsInDownload f)
    (hs : fotaTask cfg f i = some next) : LogSound cfg next := by
  unfold Download.fotaTask at hs
  split at hs
  · cases hs
    exact h.quiet (.refl _)
  · cases hs
    exact h.quiet (taskTop_quiet cfg f)
  · split at hs
    · cases hs
    · cases hs
      exact h.quiet (initRound_quiet cfg { f with doCheckEvent := f.doCheckEvent-1 } i)
  · rename_i hpc
    split at hs
    · cases hs
    · obtain ⟨io, hio, hs⟩ := Option.bind_eq_some_iff.mp hs
      obtain ⟨toOffset, hto, hs⟩ := Option.map_eq_some_iff.mp hs
      rw [← hs]
      have hf : LogSound cfg { f with semDownload := f.semDownload-1 } := h.quiet (.refl _)
      exact hf.downloadRound (hw hpc) io toOffset i
  · cases hs

/-- Every action keeps what is known of the log. -/
theorem step_logSound {act : Action} (hs : step cfg f act = some next) (h : LogSound cfg f)
    (hw : WaitsInDownload f) : LogSound cfg next := by
  cases act with
  | task i => exact h.fotaTask hw hs
  | start task =>
    cases hs
    exact h.quiet (fotaStart_quiet f task)
  | stop =>
    cases hs
    exact h.quiet (.refl _)
  | doCheck =>
    cases hs
    exact h.quiet (fotaDoCheck_quiet f)
  | download i =>
    cases hs
    exact h.quiet (fotaDownload_quiet cfg f i)
  | restart delayMs timer =>
    cases hs
    exact h.fotaRestart delayMs timer
  | config retryCount autoCheckEn =>
    cases hs
    exact h.quiet (.refl _)
  | timer =>
    cases hs
    exact h.quiet (timerThread_quiet cfg f)
  | reset =>
    cases hs
    refine h.quiet ⟨⟨[.reset], rfl, ?_⟩, nofun⟩
    simp only [mem_singleton, forall_eq]
    rfl

/-- The log of every run is sound. -/
theorem run_logSound {acts : List Action} (hr : run cfg acts fresh = some f) : LogSound cfg f := by
  have hstart : LogSound cfg fresh ∧ WaitsInDownload fresh :=
    ⟨⟨nofun, trivial, fun _ => .inr nofun, fun _ => trivial⟩, nofun⟩
  exact (run_keeps (P := fun g => LogSound cfg g ∧ WaitsInDownload g)
    (fun _ _ _ hs hf => ⟨step_logSound hs hf.1 hf.2, step_waits hf.2 hs⟩)
    hr hstart).1

/-- In every run, `FOTA_FINISH`, its event, an accepted restart and the `finish` hook
happen to verified downloads only, exactly if there is no such hook or every
`fota_data_verify` of the run returned 0. -/
theorem run_finishes_verified_iff (cfg : Setup) (acts : List Action) (f : Fota)
    (hr : run cfg acts fresh = some f) :
    AfterVerify Event.finishes f.log ↔
      cfg.finish = false ∨ ∀ ret stored, Event.verify ret stored ∈ f.log → ret = 0 := by
  have hsound := run_logSound hr
  rw [afterVerify_finishes]
  exact ⟨fun h => hsound.hook.mp h.1, fun h => ⟨hsound.hook.mpr h, hsound.completes⟩⟩

/-- A download of one byte that is verified. -/
def verifiedActs : List Action := sampleActs [granted [1] .whole 0, granted [] .whole 0]

/-- The same download, refused by the verification. -/
def refusedActs : List Action := sampleActs [granted [1] .whole 0, granted [] .whole (-1)]

/-- Not a verification that failed. -/
def Event.passed : Event → Bool
  | .verify ret _ => ret = 0
  | _ => true

theorem run_finishes_verified_sample : ∃ f, run (sampleSetup [7]) verifiedActs fresh = some f ∧
    f.status = .finish ∧ AfterVerify Event.finishes f.log := by
  obtain ⟨f, hr, hs, hp⟩ : ∃ f, run (sampleSetup [7]) verifiedActs fresh = some f ∧
      f.status = .finish ∧ f.log.all Event.passed = true := by
    decide +kernel
  refine ⟨f, hr, hs, (run_finishes_verified_iff _ _ _ hr).mpr (.inr fun ret stored hmem => ?_)⟩
  exact of_decide_eq_true (List.all_eq_true.mp hp _ hmem)

/-- The `finish` hook is called for a download that `fota_data_verify` refused. -/
theorem run_finishes_refused : ∃ f, run (sampleSetup [7]) refusedActs fresh = some f ∧
    ¬ AfterVerify Event.finishes f.log := by
  decide +kernel

end PineVoice.Download
