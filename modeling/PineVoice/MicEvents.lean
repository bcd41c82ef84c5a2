import PineVoice.RingBuffer

/-!
# Events of the microphone data

The audio task writes to the ring and announces it with an event, at most while `evt_cnt` is below
2. The service task empties the ring at such an event and resets the counter afterwards. Every
load and every store of the counter and of the ring is a step of its own.
-/

namespace PineVoice.Mic
open PineVoice.Transition PineVoice.RingBuffer List

/-- `FRAME_SIZE`. -/
def frameSize : ℕ := (16000/1000)*(16/8)*10

/-- The events `_event_hdl` is called with: microphone data, or any other one. -/
inductive Event where
  /-- `MIC_EVENT_PCM_DATA`. -/
  | pcm
  /-- Any other event. -/
  | other
deriving Repr, DecidableEq

/-- Where `mic_event_hdl` stands in a call with data. -/
inductive Audio where
  /-- Not called. -/
  | idle
  /-- In `ringbuffer_write`. -/
  | writing
  /-- The load of `evt_cnt` for the first comparison. -/
  | test
  /-- The load of `evt_cnt++`. -/
  | incr
  /-- The store of `evt_cnt++`. -/
  | bump (cnt : ℕ)
  /-- The load of `evt_cnt` for the second comparison. -/
  | check
  /-- The call of `uservice_call_async`. -/
  | send
deriving Repr, DecidableEq

/-- The count loaded for `evt_cnt++` and not stored yet. -/
def Audio.loaded : Audio → ℕ
  | .bump cnt => cnt
  | _ => 0

/-- Where `_event_hdl` stands. -/
inductive Service where
  /-- Not called. -/
  | idle
  /-- In the loop that empties the ring. -/
  | drain
  /-- The store of zero to `evt_cnt`. -/
  | reset
deriving Repr, DecidableEq

/-- The microphone, the queue of its service and the two tasks. -/
structure State where
  /-- `CONFIG_MIC_RINGBUF_RAME`. -/
  frames : ℕ
  /-- `evt_cnt`. -/
  evtCnt : ℕ
  /-- The buffer of the ring has been allocated. -/
  recvBuf : Bool
  /-- The ring, and where the two tasks stand in its functions. -/
  ring : RingBuffer.State
  /-- The events in the queue of the service. -/
  queue : List Event
  /-- The audio task. -/
  audio : Audio
  /-- The service task. -/
  service : Service

/-- A microphone that has not been used. -/
def State.init (frames : ℕ) : State :=
  ⟨frames, 0, false, RingBuffer.State.start 0, [], .idle, .idle⟩

/-- What can happen next. -/
inductive Act where
  /-- The audio task calls `mic_event_hdl` with data. -/
  | pcmData (data : List UInt8)
  /-- The audio task goes on. -/
  | audio
  /-- The audio task's `uservice_call_async` succeeds or fails. -/
  | send (ok : Bool)
  /-- The service task takes an event or goes on. -/
  | service
  /-- Another event is posted, or the queue is full. -/
  | post (ok : Bool)
deriving DecidableEq

/-- `audio_write` up to the call of `ringbuffer_write`: the first call creates the ring. -/
def State.audioWrite (s : State) : RingBuffer.State :=
  if s.recvBuf then s.ring
  else { s.ring with ring := ringbufferCreate (frameSize*s.frames+1) }

/-- The next step of `mic_event_hdl`. -/
def State.audioStep (s : State) : Option State :=
  match s.audio with
  | .idle => none
  | .writing =>
    match s.ring.writer with
    | .idle => some { s with audio := .test }
    | _ => s.ring.writerStep.map fun ring => { s with ring := ring }
  | .test => some { s with audio := if s.evtCnt < 2 then .incr else .check }
  | .incr => some { s with audio := .bump s.evtCnt }
  | .bump cnt => some { s with evtCnt := cnt+1, audio := .check }
  | .check => some { s with audio := if s.evtCnt < 2 then .send else .idle }
  | .send => none

/-- The next step of `_event_hdl`. A callback does not touch what is modelled here. -/
def State.serviceStep (s : State) : Option State :=
  match s.service with
  | .idle =>
    match s.queue with
    | [] => none
    | .pcm :: queue => some { s with queue := queue, service := .drain }
    | .other :: queue => some { s with queue := queue, service := .reset }
  | .drain =>
    match s.ring.reader with
    | .idle => (s.ring.step (.read frameSize)).map fun ring => { s with ring := ring }
    | .ret got =>
      s.ring.readerStep.map fun ring =>
        { s with ring := ring, service := if got.length > 0 then .drain else .reset }
    | _ => s.ring.readerStep.map fun ring => { s with ring := ring }
  | .reset => some { s with evtCnt := 0, service := .idle }

/-- A step; nothing if it cannot be taken. -/
def State.step (s : State) : Act → Option State
  | .pcmData data =>
    match s.audio with
    | .idle =>
      (s.audioWrite.step (.write data)).map fun ring =>
        { s with recvBuf := true, ring := ring, audio := .writing }
    | _ => none
  | .audio => s.audioStep
  | .send ok =>
    match s.audio with
    | .send =>
      some { s with queue := if ok then s.queue++[Event.pcm] else s.queue, audio := .idle }
    | _ => none
  | .service => s.serviceStep
  | .post ok => some { s with queue := if ok then s.queue++[Event.other] else s.queue }

/-- There is data in the ring. -/
def State.HasData (s : State) : Prop :=
  availableReadSpace s.ring.ring.length s.ring.ring.ridx s.ring.ring.widx ≠ 0

/-- While neither function is running, data in the ring has an event in the queue. -/
def State.Announced (s : State) : Prop :=
  s.audio = .idle → s.service = .idle → s.HasData → Event.pcm ∈ s.queue

/-- Data in the ring will be found: its event is in the queue, or the service task is emptying the
ring and has not found it empty. -/
def State.Attended (s : State) : Prop :=
  Event.pcm ∈ s.queue ∨ (s.service = .drain ∧ s.ring.reader ≠ .ret [])

/-- The schedules without a lost announcement. The event of the audio task is not refused, and is
not left out because of the counter, while the service task will not look into the ring again;
and the counter is not reset between the load and the store of `evt_cnt++`. -/
def Heeded (s : State) : Act → Prop
  | .send ok => ok = true ∨ s.Attended
  | .audio => s.audio = .check → 2 ≤ s.evtCnt → s.HasData → s.Attended
  | .service => s.service = .reset → Event.pcm ∈ s.queue ∨ s.audio.loaded = 0
  | _ => True

instance (s : State) : Decidable s.HasData :=
  inferInstanceAs (Decidable (_ ≠ 0))

instance (s : State) : Decidable s.Attended :=
  inferInstanceAs (Decidable (_ ∨ _))

instance (s : State) : (a : Act) → Decidable (Heeded s a)
  | .send ok => inferInstanceAs (Decidable (ok = true ∨ s.Attended))
  | .audio => inferInstanceAs
      (Decidable (s.audio = .check → 2 ≤ s.evtCnt → s.HasData → s.Attended))
  | .service => inferInstanceAs
      (Decidable (s.service = .reset → Event.pcm ∈ s.queue ∨ s.audio.loaded = 0))
  | .pcmData _ | .post _ => isTrue trivial

/-- The service task has an event or will have one. -/
def State.Awake (s : State) : Prop :=
  Event.pcm ∈ s.queue ∨ s.service ≠ .idle

/-- What holds in every state of a run without a lost announcement. -/
structure State.Inv (s : State) : Prop where
  /-- What the reader of the ring knows. -/
  sees : s.ring.reader.Sees s.ring.ring.ridx
  /-- The ring is read only at an event with data. -/
  reader : s.service ≠ .drain → s.ring.reader = .idle
  /-- Before the first data nothing has been announced. -/
  fresh : s.recvBuf = false → Event.pcm ∉ s.queue ∧ s.service ≠ .drain ∧ s.audio = .idle
  /-- Data in the ring is attended to, or the audio task has not come to its event. -/
  data : s.HasData → s.Attended ∨ s.audio ≠ .idle
  /-- A counted event is on its way. -/
  counted : 1 ≤ s.evtCnt → s.Awake ∨ s.audio = .send ∨ (s.audio = .check ∧ s.evtCnt < 2)
  /-- An event counted before the current one is on its way. -/
  loaded : s.audio.loaded ≠ 0 → s.Awake

section Invariant

variable {s s' : State}

theorem State.Inv.init (frames : ℕ) : (State.init frames).Inv where
  sees := trivial
  reader _ := rfl
  fresh _ := ⟨not_mem_nil, Service.noConfusion, rfl⟩
  data hdata := absurd rfl hdata
  counted hcnt := absurd hcnt (Nat.not_succ_le_zero 0)
  loaded hne := absurd rfl hne

theorem State.Inv.announced (h : s.Inv) : s.Announced := by
  intro haudio hservice hdata
  rcases h.data hdata with (hqueue | ⟨hdrain, -⟩) | hne
  · exact hqueue
  · rw [hservice] at hdrain
    cases hdrain
  · exact absurd haudio hne

theorem State.Attended.awake (h : s.Attended) : s.Awake := by
  rcases h with hqueue | ⟨hdrain, -⟩
  · exact .inl hqueue
  · refine .inr ?_
    rw [hdrain]
    exact Service.noConfusion

variable {audio : Audio} {queue : List Event} {ring : RingBuffer.State}

/-- A step of the audio task that touches neither the ring nor the queue, and does not end the
call. -/
theorem State.Inv.advance (h : s.Inv) {cnt : ℕ} (hold : s.audio ≠ .idle) (hnew : audio ≠ .idle)
    (hcounted : 1 ≤ cnt → s.Awake ∨ audio = .send ∨ (audio = .check ∧ cnt < 2))
    (hloaded : audio.loaded ≠ 0 → s.Awake) :
    State.Inv { s with evtCnt := cnt, audio := audio } where
  sees := h.sees
  reader := h.reader
  fresh hfresh := absurd (h.fresh hfresh).2.2 hold
  data _ := .inr hnew
  counted := hcounted
  loaded := hloaded

/-- The audio task ends a call while the data is attended to. -/
theorem State.Inv.finish (h : s.Inv) (hold : s.audio ≠ .idle)
    (hdata : s.HasData → State.Attended { s with queue := queue, audio := .idle })
    (hcounted : 1 ≤ s.evtCnt → State.Awake { s with queue := queue, audio := .idle }) :
    State.Inv { s with queue := queue, audio := .idle } where
  sees := h.sees
  reader := h.reader
  fresh hfresh := absurd (h.fresh hfresh).2.2 hold
  data hd := .inl (hdata hd)
  counted hcnt := .inl (hcounted hcnt)
  loaded hne := absurd rfl hne

/-- A counted event is on its way, unless the audio task is about to send it. -/
theorem State.Inv.awake (h : s.Inv) (hsend : s.audio ≠ .send)
    (hcheck : s.audio = .check → 2 ≤ s.evtCnt) (hcnt : 1 ≤ s.evtCnt) : s.Awake := by
  rcases h.counted hcnt with hawake | hs | ⟨hc, hlt⟩
  · exact hawake
  · exact absurd hs hsend
  · exact absurd (hcheck hc) (Nat.not_le.mpr hlt)

/-- The audio task writes to the ring. -/
theorem State.Inv.ringWrite (h : s.Inv) {recvBuf : Bool} (hbuf : recvBuf = true)
    (hnew : audio = .writing) (hold : s.audio = .idle ∨ s.audio = .writing)
    (hreader : ring.reader = s.ring.reader) (hsees : ring.reader.Sees ring.ring.ridx) :
    State.Inv { s with recvBuf := recvBuf, ring := ring, audio := audio } := by
  subst hbuf hnew
  refine ⟨hsees, fun hs => hreader.trans (h.reader hs), fun hf => Bool.noConfusion hf,
    fun _ => .inr Audio.noConfusion, fun hcnt => .inl ?_, fun hne => absurd rfl hne⟩
  refine h.awake (fun hs => ?_) (fun hs => ?_) hcnt <;>
    rcases hold with hold | hold <;> rw [hold] at hs <;> cases hs

theorem State.Inv.audioStep (h : s.Inv) (hheeded : Heeded s .audio)
    (hstep : s.audioStep = some s') : s'.Inv := by
  revert hstep
  fun_cases State.audioStep s <;> intro hstep
  case case2 hpc _ =>
    cases hstep
    have hawake := h.awake (hpc.trans_ne Audio.noConfusion)
      fun hc => Audio.noConfusion (hpc.symm.trans hc)
    exact h.advance (hpc.trans_ne Audio.noConfusion) Audio.noConfusion
      (fun hcnt => .inl (hawake hcnt)) fun hne => absurd rfl hne
  case case3 hpc _ =>
    have hold : s.audio ≠ .idle := hpc.trans_ne Audio.noConfusion
    obtain ⟨ring, hring, rfl⟩ := Option.map_eq_some_iff.mp hstep
    obtain ⟨hreader, hridx⟩ := writerStep_reader hring
    refine h.ringWrite ?_ hpc (.inr hpc) hreader (by rw [hreader, hridx]; exact h.sees)
    exact Bool.eq_true_of_not_eq_false fun hf => hold (h.fresh hf).2.2
  case case4 hpc =>
    cases hstep
    have hawake := h.awake (hpc.trans_ne Audio.noConfusion)
      fun hc => Audio.noConfusion (hpc.symm.trans hc)
    refine h.advance (hpc.trans_ne Audio.noConfusion) ?_ (fun hcnt => .inl (hawake hcnt)) ?_
    · split_ifs <;> exact Audio.noConfusion
    · split_ifs <;> exact fun hne => absurd rfl hne
  case case5 hpc =>
    cases hstep
    have hawake := h.awake (hpc.trans_ne Audio.noConfusion)
      fun hc => Audio.noConfusion (hpc.symm.trans hc)
    refine h.advance (hpc.trans_ne Audio.noConfusion) Audio.noConfusion
      (fun hcnt => .inl (hawake hcnt)) fun hne => hawake (Nat.pos_of_ne_zero hne)
  case case6 cnt hpc =>
    cases hstep
    refine h.advance (hpc.trans_ne Audio.noConfusion) Audio.noConfusion (fun _ => ?_)
      fun hne => absurd rfl hne
    by_cases hzero : cnt = 0
    · exact .inr (.inr ⟨rfl, by omega⟩)
    · exact .inl (h.loaded (by rwa [hpc]))
  case case7 hpc =>
    have hold : s.audio ≠ .idle := hpc.trans_ne Audio.noConfusion
    cases hstep
    by_cases hlt : s.evtCnt < 2
    · rw [if_pos hlt]
      exact h.advance hold Audio.noConfusion (fun _ => .inr (.inl rfl))
        fun hne => absurd rfl hne
    · rw [if_neg hlt]
      have hawake := h.awake (hpc.trans_ne Audio.noConfusion) fun _ => Nat.not_lt.mp hlt
      exact h.finish hold (hheeded hpc (Nat.not_lt.mp hlt)) hawake
  all_goals cases hstep

/-- The service task, emptying the ring, takes a step in it. -/
theorem State.Inv.ringRead (h : s.Inv) (hdrain : s.service = .drain) (ring : RingBuffer.State)
    (hsees : ring.reader.Sees ring.ring.ridx)
    (hempty : ring.reader = .ret [] →
      availableReadSpace ring.ring.length ring.ring.ridx ring.ring.widx = 0) :
    State.Inv { s with ring := ring } := by
  have hawake : State.Awake { s with ring := ring } :=
    .inr (hdrain.trans_ne Service.noConfusion)
  refine ⟨hsees, fun hs => absurd hdrain hs, fun hf => absurd hdrain (h.fresh hf).2.1,
    fun hdata => .inl (.inr ⟨hdrain, fun hret => hdata (hempty hret)⟩), fun _ => .inl hawake,
    fun _ => hawake⟩

/-- The service task leaves the loop or takes another event than data. -/
theorem State.Inv.toReset (h : s.Inv) (hreader : ring.reader = .idle)
    (hring : ring.ring = s.ring.ring) (hqueue : Event.pcm ∈ queue ↔ Event.pcm ∈ s.queue)
    (hfound : s.service = .drain → s.ring.reader = .ret []) :
    State.Inv { s with ring := ring, queue := queue, service := .reset } := by
  have hawake : State.Awake { s with ring := ring, queue := queue, service := .reset } :=
    .inr Service.noConfusion
  refine ⟨by rw [hreader]; trivial, fun _ => hreader, fun hf => ?_, fun hdata => ?_,
    fun _ => .inl hawake, fun _ => hawake⟩
  · exact ⟨mt hqueue.mp (h.fresh hf).1, Service.noConfusion, (h.fresh hf).2.2⟩
  · change availableReadSpace ring.ring.length ring.ring.ridx ring.ring.widx ≠ 0 at hdata
    rw [hring] at hdata
    rcases h.data hdata with (hmem | ⟨hdrain, hne⟩) | hne
    · exact .inl (.inl (hqueue.mpr hmem))
    · exact absurd (hfound hdrain) hne
    · exact .inr hne

theorem State.Inv.serviceStep (h : s.Inv) (hheeded : Heeded s .service)
    (hstep : s.serviceStep = some s') : s'.Inv := by
  cases hpc : s.service with
  | idle =>
    have hreader := h.reader (hpc.trans_ne Service.noConfusion)
    have hnot : s.service ≠ .drain := hpc.trans_ne Service.noConfusion
    rw [State.serviceStep, hpc] at hstep
    cases hqueue : s.queue with
    | nil =>
      rw [hqueue] at hstep
      cases hstep
    | cons event queue =>
      rw [hqueue] at hstep
      cases event with
      | pcm =>
        cases hstep
        have hmem : Event.pcm ∈ s.queue := by
          rw [hqueue]
          exact mem_cons_self
        refine ⟨h.sees, fun hs => absurd rfl hs, fun hf => absurd hmem (h.fresh hf).1,
          fun _ => .inl (.inr ⟨rfl, hreader.trans_ne Reader.noConfusion⟩),
          fun _ => .inl (.inr Service.noConfusion), fun _ => .inr Service.noConfusion⟩
      | other =>
        cases hstep
        refine h.toReset hreader rfl ?_ fun hs => absurd hs hnot
        rw [hqueue, mem_cons, or_iff_right Event.noConfusion]
  | drain =>
    rw [State.serviceStep, hpc] at hstep
    dsimp only at hstep
    split at hstep
    · next hidle =>
      rw [RingBuffer.State.step, hidle] at hstep
      cases hstep
      have hread : 0 < frameSize := by decide
      simpa only [hpc] using h.ringRead hpc { s.ring with reader := .emptyR frameSize } hread
        Reader.noConfusion
    · next got hret =>
      obtain ⟨ring, hring, rfl⟩ := Option.map_eq_some_iff.mp hstep
      obtain ⟨hsees, hempty⟩ := readerStep_sees h.sees hring
      by_cases hgot : got.length > 0
      · rw [if_pos hgot]
        simpa only [hpc] using h.ringRead hpc ring hsees hempty
      · rw [RingBuffer.State.readerStep, hret] at hring
        cases hring
        obtain rfl := eq_nil_of_length_eq_zero (Nat.eq_zero_of_not_pos hgot)
        exact h.toReset rfl rfl Iff.rfl fun _ => hret
    · obtain ⟨ring, hring, rfl⟩ := Option.map_eq_some_iff.mp hstep
      obtain ⟨hsees, hempty⟩ := readerStep_sees h.sees hring
      simpa only [hpc] using h.ringRead hpc ring hsees hempty
  | reset =>
    have hreader := h.reader (hpc.trans_ne Service.noConfusion)
    rw [State.serviceStep, hpc] at hstep
    cases hstep
    refine ⟨h.sees, fun _ => hreader, fun hf => ?_, fun hdata => ?_,
      fun hcnt => absurd hcnt (Nat.not_succ_le_zero 0), fun hne => ?_⟩
    · exact ⟨(h.fresh hf).1, Service.noConfusion, (h.fresh hf).2.2⟩
    · rcases h.data hdata with (hmem | ⟨hdrain, -⟩) | hne
      · exact .inl (.inl hmem)
      · exact Service.noConfusion (hpc.symm.trans hdrain)
      · exact .inr hne
    · rcases hheeded hpc with hmem | hzero
      · exact .inl hmem
      · exact absurd hzero hne

/-- A ring that is created is not being read. -/
theorem State.Inv.audioWrite_sees (h : s.Inv) :
    s.audioWrite.reader = s.ring.reader ∧ s.audioWrite.reader.Sees s.audioWrite.ring.ridx := by
  rw [State.audioWrite]
  split_ifs with hbuf
  · exact ⟨rfl, h.sees⟩
  · have hidle := h.reader (h.fresh (Bool.eq_false_of_not_eq_true hbuf)).2.1
    refine ⟨rfl, ?_⟩
    rw [hidle]
    trivial

/-- Another event in the queue changes nothing. -/
theorem State.Inv.post (h : s.Inv) (hqueue : Event.pcm ∈ queue ↔ Event.pcm ∈ s.queue) :
    State.Inv { s with queue := queue } := by
  have hawake : s.Awake → State.Awake { s with queue := queue } :=
    Or.imp_left hqueue.mpr
  exact ⟨h.sees, h.reader, fun hf => ⟨mt hqueue.mp (h.fresh hf).1, (h.fresh hf).2⟩,
    fun hdata => (h.data hdata).imp_left (Or.imp_left hqueue.mpr),
    fun hcnt => (h.counted hcnt).imp_left hawake,
    fun hne => hawake (h.loaded hne)⟩

theorem State.Inv.step (h : s.Inv) {a : Act} (hheeded : Heeded s a)
    (hstep : s.step a = some s') : s'.Inv := by
  cases a with
  | pcmData data =>
    cases hpc : s.audio <;> rw [State.step, hpc] at hstep
    case idle =>
      obtain ⟨ring, hring, rfl⟩ := Option.map_eq_some_iff.mp hstep
      obtain rfl := step_write hring
      exact h.ringWrite rfl rfl (.inl hpc) h.audioWrite_sees.1 h.audioWrite_sees.2
    all_goals cases hstep
  | audio => exact h.audioStep hheeded hstep
  | send ok =>
    cases hpc : s.audio <;> rw [State.step, hpc] at hstep <;> cases hstep
    have hattended : State.Attended
        { s with queue := if ok then s.queue++[Event.pcm] else s.queue, audio := .idle } := by
      cases ok with
      | false => exact hheeded.resolve_left Bool.noConfusion
      | true => exact .inl (mem_append_right _ mem_cons_self)
    exact h.finish (hpc.trans_ne Audio.noConfusion) (fun _ => hattended) fun _ =>
      hattended.awake
  | service => exact h.serviceStep hheeded hstep
  | post ok =>
    cases hstep
    refine h.post ?_
    cases ok with
    | false => exact Iff.rfl
    | true => exact (List.mem_append.trans (or_iff_left (by decide)))

end Invariant

/-- In every run without a lost announcement: while neither function is running, data in the ring
has an event in the queue. -/
theorem mic_data_announced {frames : ℕ} {acts : List Act} {s : State}
    (hheeded : Along State.step Heeded (State.init frames) acts)
    (hrun : run State.step (State.init frames) acts = some s) : s.Announced :=
  (run_keeps (fun _ _ _ hheeded h hstep => State.Inv.step h hheeded hstep) hheeded
    (State.Inv.init frames) hrun).announced

/-- A call with one byte, up to the second comparison. -/
def callActs (byte : UInt8) : List Act :=
  Act.pcmData [byte] :: List.replicate 13 Act.audio

/-- A byte is announced, the event is taken, the byte is read, and the next read finds the ring
empty. -/
def drainActs : List Act :=
  callActs 7++Act.send true :: List.replicate 15 Act.service

/-- The counter is reset and another byte is announced. -/
theorem mic_data_announced_twice :
    ∃ s, run State.step (State.init 1) (drainActs++Act.service :: Act.service :: callActs 8++
        [Act.send true]) = some s ∧ s.HasData ∧ s.Announced :=
  exists_some_and (by decide +kernel) fun _ hrun _ => mic_data_announced (by decide +kernel) hrun

/-- A byte is written after the last read and before the reset: the counter is at its limit. -/
def lateActs : List Act :=
  drainActs++callActs 8++[Act.service, Act.service]

/-- The queue is full of another event. -/
def refusedActs : List Act :=
  Act.post true :: callActs 7++[Act.send false]

/-- The counter is reset between the load and the store of `evt_cnt++`, and stays at its limit
when the ring has been emptied. -/
def racedActs : List Act :=
  callActs 7++Act.send true :: Act.pcmData [8] :: List.replicate 11 Act.audio++
    List.replicate 22 Act.service++[Act.audio, Act.audio]++
    Act.pcmData [9] :: List.replicate 11 Act.audio

/-- A run leaves data in the ring without an event, and neither function is running. -/
def Unannounced (acts : List Act) : Prop :=
  ∃ s, run State.step (State.init 1) acts = some s ∧ s.audio = .idle ∧ s.service = .idle ∧
    s.HasData ∧ Event.pcm ∉ s.queue

/-- Each of the three schedules does harm. -/
theorem mic_data_unannounced :
    Unannounced lateActs ∧ Unannounced refusedActs ∧ Unannounced racedActs := by
  unfold Unannounced
  decide +kernel

end PineVoice.Mic
