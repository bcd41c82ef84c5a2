import PineVoice.IpcProgress
import PineVoice.Transition

/-!
# What the callbacks receive

From a state in which nothing is under way, the callback of a service receives the requests sent
to it, in the order in which the senders obtained `tx_mutex`. `ipc_add_service` sets the read
event of its core by itself. If no descriptor is waiting then, the receiving task delivers the
last packet again and acknowledges it again.
-/

namespace PineVoice.Ipc

open Function List

section Sides

variable {shm : Side → Shm} {y y' : Sys} {s : Side} {act : Act}

@[simp] theorem setDir_self (y : Sys) (s : Side) (d : Dir) : (y.setDir s d).dir s = d := by
  simp [Sys.setDir]

@[simp] theorem setBoth_self (y : Sys) (s c : Side) (x : Dir × Option Holder) :
    (y.setBoth s c x).dir s = x.1 := by
  simp [Sys.setBoth]

/-- A step in the direction of a core leaves the other direction alone. -/
theorem step_other (hstep : y.step shm s act = some y') : y'.dir s.other = y.dir s.other := by
  cases act with
  | send m =>
    obtain ⟨-, -, rfl⟩ := step_send hstep
    exact update_of_ne (other_ne s) _ _
  | tx | rx =>
    obtain ⟨x, -, rfl⟩ := Option.map_eq_some_iff.mp hstep
    exact update_of_ne (other_ne s) _ _
  | dataIrq | ackIrq | svc id | addService id =>
    obtain ⟨d, -, rfl⟩ := Option.map_eq_some_iff.mp hstep
    exact update_of_ne (other_ne s) _ _

/-- The steps of what is under way in a direction. -/
inductive Move (shm : Shm) (d : Dir) : Act → Dir → Prop
  | tx {d' : Dir} {ch ch' : Option Holder} (h : d.txStep shm ch = some (d', ch')) :
    Move shm d .tx d'
  | dataIrq {d' : Dir} (h : d.dataStep = some d') : Move shm d .dataIrq d'
  | ackIrq {d' : Dir} (h : d.ackStep = some d') : Move shm d .ackIrq d'
  | rx {d' : Dir} {ch ch' : Option Holder} (h : d.rxStep ch = some (d', ch')) : Move shm d .rx d'
  | svc {d' : Dir} {id : ℕ} (h : d.svcStep id = some d') : Move shm d (.svc id) d'

theorem step_move (hact : act.internal = true) (hstep : y.step shm s act = some y') :
    Move (shm s) (y.dir s) act (y'.dir s) := by
  cases act with
  | send m => cases hact
  | addService id => cases hact
  | tx =>
    obtain ⟨x, hx, rfl⟩ := Option.map_eq_some_iff.mp hstep
    rw [setBoth_self]
    exact .tx hx
  | dataIrq =>
    obtain ⟨d, hd, rfl⟩ := Option.map_eq_some_iff.mp hstep
    rw [setDir_self]
    exact .dataIrq hd
  | ackIrq =>
    obtain ⟨d, hd, rfl⟩ := Option.map_eq_some_iff.mp hstep
    rw [setDir_self]
    exact .ackIrq hd
  | rx =>
    obtain ⟨x, hx, rfl⟩ := Option.map_eq_some_iff.mp hstep
    rw [setBoth_self]
    exact .rx hx
  | svc id =>
    obtain ⟨d, hd, rfl⟩ := Option.map_eq_some_iff.mp hstep
    rw [setDir_self]
    exact .svc hd

theorem view_sent {d d' : Dir} (h : d'.view = d.view) :
    d'.sent = d.sent ∧ d'.registered = d.registered := by
  simp only [Dir.view, Prod.mk.injEq] at h
  exact ⟨h.1, h.2.2.2.2.1⟩

/-- What is under way adds neither messages nor services. -/
theorem Move.sent {shm : Shm} {d d' : Dir} (h : Move shm d act d') :
    d'.sent = d.sent ∧ d'.registered = d.registered := by
  cases h with
  | tx h => exact view_sent (txStep_view h)
  | dataIrq h => exact view_sent (dataStep_view h)
  | ackIrq h => exact view_sent (ackStep_view h)
  | rx h =>
    rcases rxStep_view h with hsame | ⟨p, -, hsent, -, -, hreg, -, -⟩
    · exact view_sent hsame
    · exact ⟨hsent, hreg⟩
  | svc h => cases svcStep_move h <;> exact ⟨rfl, rfl⟩

/-- What is under way gets less with every step. -/
theorem Move.work {shm : Shm} {s0 : ℕ} {d d' : Dir} (h : Move shm d act d')
    (hlink : Link shm s0 d) : d'.work shm < d.work shm := by
  cases h with
  | tx h => exact txStep_work h
  | dataIrq h => exact dataStep_work h
  | ackIrq h => exact ackStep_work h
  | rx h => exact hlink.rxStep_work h
  | svc h => exact hlink.svcStep_work h

/-- What is already under way sends nothing on either side. -/
theorem step_internal_sent (hact : act.internal = true) (hstep : y.step shm s act = some y')
    (t : Side) : (y'.dir t).sent = (y.dir t).sent := by
  rcases eq_or_ne t s with rfl | ht
  · exact (step_move hact hstep).sent.1
  · rw [eq_other ht, step_other hstep]

/-- The steps that are left on both sides. -/
def Sys.work (shm : Side → Shm) (y : Sys) : ℕ :=
  (y.dir .a).work (shm .a)+(y.dir .b).work (shm .b)

theorem work_side (y : Sys) (s : Side) :
    y.work shm = (y.dir s).work (shm s)+(y.dir s.other).work (shm s.other) := by
  cases s
  · rfl
  · exact Nat.add_comm _ _

/-- Every step of what is under way leaves less to do. -/
theorem Good.step_work (h : Good shm y) (hact : act.internal = true)
    (hstep : y.step shm s act = some y') : y'.work shm < y.work shm := by
  obtain ⟨s0, hlink⟩ := h.link s
  have hless := (step_move hact hstep).work hlink
  rw [work_side y s, work_side y' s, step_other hstep]
  exact Nat.add_lt_add_right hless _

theorem stepOk_internal (y : Sys) (s : Side) (hact : act.internal = true) : StepOk y s act := by
  cases act <;> first | exact trivial | cases hact

/-- However what is under way goes on, it comes to an end, and a property holds then. -/
def Sys.Settles (shm : Side → Shm) (y : Sys) (P : Sys → Prop) : Prop :=
  ∃ n, ∀ ys y', (∀ x ∈ ys, x.2.internal = true) → y.run shm ys = some y' →
    ys.length ≤ n ∧ (Quiet shm y' → P y')

theorem Good.run_internal : ∀ {ys : List (Side × Act)} {y y' : Sys}, Good shm y →
    (∀ x ∈ ys, x.2.internal = true) → y.run shm ys = some y' →
    Good shm y' ∧ y'.work shm+ys.length ≤ y.work shm ∧ ∀ t, (y'.dir t).sent = (y.dir t).sent
  | [], _, _, h, _, hrun => by
    cases hrun
    exact ⟨h, Nat.le_refl _, fun _ => rfl⟩
  | x :: ys, y, y', h, hint, hrun => by
    obtain ⟨z, hz, hrest⟩ := Option.bind_eq_some_iff.mp hrun
    have hact := hint x mem_cons_self
    have hwork := h.step_work hact hz
    obtain ⟨hgood, hle, hsent⟩ := Good.run_internal (h.step (stepOk_internal y x.1 hact) hz)
      (fun x' hx' => hint x' (mem_cons_of_mem x hx')) hrest
    refine ⟨hgood, ?_, fun t => (hsent t).trans (step_internal_sent hact hz t)⟩
    rw [length_cons]
    omega

/-- Everything that was sent arrives, whatever the order of the steps. -/
theorem Good.settles (h : Good shm y) : y.Settles shm fun z => ∀ t, (z.dir t).tx = .idle ∧
    ∀ id, (z.dir t).delivered id = ((y.dir t).sentTo id).map (Message.received (shm t)) := by
  refine ⟨y.work shm, fun ys z hint hrun => ?_⟩
  obtain ⟨hgood, hle, hsent⟩ := h.run_internal hint hrun
  refine ⟨by omega, fun hquiet t => ⟨(hquiet.link hgood t).1, fun id => ?_⟩⟩
  rw [hquiet.delivered hgood t id, Dir.sentTo, hsent t]
  rfl

/-- What a service has received so far. -/
theorem Good.delivered_le (h : Good shm y) (t : Side) (id : ℕ) :
    (y.dir t).delivered id <+: ((y.dir t).sentTo id).map (Message.received (shm t)) := by
  obtain ⟨s0, hlink⟩ := h.link t
  obtain ⟨done, todo, hsplit, hdone, -⟩ := hlink.served id
  rw [hdone, hsplit, map_append]
  exact prefix_append _ _

end Sides

section Callbacks

/-- What `ipc_service_entry` hands to the callback: an answer goes to the queue of the call. -/
def handed (l : List Received) : List (ℕ × List UInt8) :=
  (l.filter fun r => !isAck r.flag).map fun r => (r.command, r.payload)

/-- What the callback of a service has received. -/
def Dir.processed (d : Dir) (id : ℕ) : List (ℕ × List UInt8) := handed (d.delivered id)

/-- The messages for the callback of a service, in the order of `tx_mutex`. -/
def Dir.requests (d : Dir) (id : ℕ) : List (ℕ × List UInt8) :=
  ((d.sentTo id).filter (·.kind ≠ .ack)).map fun m => (m.command, m.payload)

theorem handed_received (shm : Shm) (l : List Message) :
    handed (l.map (Message.received shm)) =
      (l.filter (·.kind ≠ .ack)).map fun m => (m.command, m.payload) := by
  have hsame : ((fun r : Received => !isAck r.flag) ∘ Message.received shm) =
      fun m => decide (m.kind ≠ .ack) := by
    funext m
    show (!isAck (m.kind.flag (m.cached || shm.cache))) = _
    rw [isAck_flag]
    cases m.kind <;> rfl
  rw [handed, List.filter_map, List.map_map, hsame]
  rfl

theorem handed_mono {l l' : List Received} (h : l <+: l') : handed l <+: handed l' :=
  (h.filter _).map _

variable {shm : Side → Shm} {y y' : Sys} {s : Side} {act : Act}

/-- Both cores have the same services. -/
def Sys.SameServices (y : Sys) : Prop :=
  ∀ s id, id ∈ (y.dir s.other).registered → id ∈ (y.dir s).registered

theorem Sys.Fresh.sameServices (h : y.Fresh) : y.SameServices := by
  intro s id hid
  cases s
  · exact (h.registered id).mpr hid
  · exact (h.registered id).mp hid

section

variable (hadd : ∀ id, act ≠ .addService id)
include hadd

theorem step_registered (hstep : y.step shm s act = some y') (t : Side) :
    (y'.dir t).registered = (y.dir t).registered := by
  rcases eq_or_ne t s with rfl | ht
  · cases act with
    | send m =>
      obtain ⟨-, -, rfl⟩ := step_send hstep
      rw [setDir_self]
      rfl
    | addService id => exact absurd rfl (hadd id)
    | tx | rx | dataIrq | ackIrq | svc id => exact (step_move rfl hstep).sent.2
  · rw [eq_other ht, step_other hstep]

/-- Without new services, a message that can be sent is for a service of the peer. -/
theorem Sys.SameServices.stepOk (h : y.SameServices) (hstep : y.step shm s act = some y') :
    StepOk y s act := by
  cases act with
  | send m => exact h s _ (step_send hstep).2.1
  | addService id => exact absurd rfl (hadd id)
  | tx | rx | dataIrq | ackIrq | svc id => exact trivial

theorem Sys.SameServices.step (h : y.SameServices) (hstep : y.step shm s act = some y') :
    y'.SameServices := by
  intro t id hid
  rw [step_registered hadd hstep] at hid ⊢
  exact h t id hid

end

theorem run_good {xs : List (Side × Act)} (hfresh : y.Fresh)
    (hadd : ∀ x ∈ xs, ∀ id, x.2 ≠ .addService id) (hrun : y.run shm xs = some y') :
    Good shm y' ∧ y'.SameServices := by
  have halong : y.Along shm (fun _ _ act => ∀ id, act ≠ .addService id) xs :=
    along_of_forall fun x hx _ => hadd x hx
  refine run_keeps (P := fun y => Good shm y ∧ y.SameServices) (fun z z' s act hok hz hstep => ?_)
    halong ⟨Good.fresh hfresh, hfresh.sameServices⟩ hrun
  exact ⟨hz.1.step (hz.2.stepOk hok hstep) hstep, hz.2.step hok hstep⟩

/-- In every run the callback of a service has received the first of the requests sent to
it. What is under way comes to an end, and then the callback has received all of them. -/
theorem run_delivers {xs : List (Side × Act)} (hfresh : y.Fresh)
    (hadd : ∀ x ∈ xs, ∀ id, x.2 ≠ .addService id) (hrun : y.run shm xs = some y') :
    (∀ s id, (y'.dir s).processed id <+: (y'.dir s).requests id) ∧
      y'.Settles shm fun z => ∀ s, (z.dir s).tx = .idle ∧
        ∀ id, (z.dir s).processed id = (y'.dir s).requests id := by
  have hgood := (run_good hfresh hadd hrun).1
  refine ⟨fun s id => ?_, ?_⟩
  · rw [Dir.requests, ← handed_received (shm s)]
    exact handed_mono (hgood.delivered_le s id)
  · obtain ⟨n, hn⟩ := hgood.settles
    refine ⟨n, fun ys z hint hz => ⟨(hn ys z hint hz).1, fun hquiet s => ?_⟩⟩
    obtain ⟨hidle, hall⟩ := (hn ys z hint hz).2 hquiet s
    refine ⟨hidle, fun id => ?_⟩
    rw [Dir.processed, hall id, handed_received, Dir.requests]

/-- A direction with service 1, before anything was sent. -/
def sampleDir : Dir where
  seq := 2
  writeEvt := true
  tx := .idle
  slots := fun _ _ => 0
  mailbox := fun _ => 0
  dataIrq := 0
  ackIrq := 0
  readEvt := false
  rx := .wait
  registered := [1]
  svc := fun _ => Service.empty
  rxMutex := none
  sent := []
  delivered := fun _ => []
  posted := 0
  taken := 0

/-- Two such directions. -/
def sampleSys : Sys := ⟨fun _ => sampleDir, fun _ => none⟩

theorem sampleSys_fresh : sampleSys.Fresh where
  dir _ := ⟨show 2 < 2^32 by decide, rfl, rfl, rfl, rfl, rfl, rfl, fun _ => rfl, rfl, rfl,
    fun _ => rfl, rfl, rfl⟩
  ch _ := rfl
  registered _ := Iff.rfl

/-- Slots with room for one byte of the payload in a first packet. -/
def sampleShm : Side → Shm := fun _ => ⟨17, false, by decide⟩

/-- A message of one byte. -/
def sampleMsg : Message := ⟨.async, false, 1, 9, [5], 0, 0, by decide, by decide, by decide⟩

/-- A message of two packets. -/
def sampleLong : Message := ⟨.async, false, 1, 4, [5, 6, 7], 0, 0, by decide, by decide, by decide⟩

/-- A packet is sent and received, in these numbers of steps. -/
def packetSteps (s : Side) (tx rx svc : ℕ) : List (Side × Act) :=
  List.replicate tx (s, .tx) ++ (s, .dataIrq) :: (List.replicate rx (s, .rx) ++
    (s, .ackIrq) :: List.replicate svc (s, .svc 1))

/-- The message of one byte is sent and received. -/
def sampleShort : List (Side × Act) := (.a, .send sampleMsg) :: packetSteps .a 30 31 4

/-- Both messages are sent and received. -/
def sampleRun : List (Side × Act) :=
  (.a, .send sampleLong) :: (packetSteps .a 33 31 2 ++ packetSteps .a 12 16 3) ++ sampleShort

theorem sampleRun_processed :
    ((sampleSys.run sampleShm sampleRun).map fun y => (y.dir .a).processed 1) =
      some [(4, [5, 6, 7]), (9, [5])] := by
  decide +kernel

/-- The step adds a service. -/
def Act.adds : Act → Bool
  | .addService _ => true
  | _ => false

theorem sampleRun_adds : ∀ x ∈ sampleRun, ∀ id, x.2 ≠ .addService id := by
  intro x hx id heq
  have hone := List.all_eq_true.mp (by decide +kernel : sampleRun.all (!·.2.adds) = true) x hx
  rw [heq] at hone
  cases hone

theorem run_delivers_sample : ∃ y', sampleSys.run sampleShm sampleRun = some y' ∧
    (y'.dir .a).processed 1 = [(4, [5, 6, 7]), (9, [5])] ∧
    (∀ s id, (y'.dir s).processed id <+: (y'.dir s).requests id) ∧
      y'.Settles sampleShm fun z => ∀ s, (z.dir s).tx = .idle ∧
        ∀ id, (z.dir s).processed id = (y'.dir s).requests id := by
  obtain ⟨y', hrun, hprocessed⟩ := Option.map_eq_some_iff.mp sampleRun_processed
  exact ⟨y', hrun, hprocessed, run_delivers sampleSys_fresh sampleRun_adds hrun⟩

end Callbacks

section Adding

variable {shm : Side → Shm} {y y' : Sys}

/-- As long as services are added only while the read event of their core is set, and
messages go to services that are there, every message is delivered once to its service. -/
theorem run_delivers_adding {xs : List (Side × Act)} (hfresh : y.Fresh)
    (hok : y.Along shm StepOk xs) (hrun : y.run shm xs = some y') :
    (∀ s id, (y'.dir s).delivered id <+: ((y'.dir s).sentTo id).map (Message.received (shm s))) ∧
      y'.Settles shm fun z => ∀ s, (z.dir s).tx = .idle ∧ ∀ id,
        (z.dir s).delivered id = ((y'.dir s).sentTo id).map (Message.received (shm s)) := by
  have hgood : Good shm y' :=
    run_keeps (fun _ _ _ _ hstep hz => hz.step hstep) hok (Good.fresh hfresh) hrun
  exact ⟨hgood.delivered_le, hgood.settles⟩

/-- The message of two packets is sent and received, and the receiving core adds service 2 while
the read event for its second packet is set. -/
def sampleAdding : List (Side × Act) :=
  (.a, .send sampleLong) :: packetSteps .a 33 31 2 ++ (List.replicate 12 (.a, .tx) ++
    (.a, .dataIrq) :: (.a, .addService 2) :: (List.replicate 16 (.a, .rx) ++
      (.a, .ackIrq) :: List.replicate 3 (.a, .svc 1)))

theorem run_delivers_adding_sample : ∃ y', sampleSys.run sampleShm sampleAdding = some y' ∧
    ((y'.dir .a).registered, (y'.dir .a).processed 1) = ([1, 2], [(4, [5, 6, 7])]) ∧
    (∀ s id, (y'.dir s).delivered id <+:
      ((y'.dir s).sentTo id).map (Message.received (sampleShm s))) ∧
      y'.Settles sampleShm fun z => ∀ s, (z.dir s).tx = .idle ∧ ∀ id,
        (z.dir s).delivered id = ((y'.dir s).sentTo id).map (Message.received (sampleShm s)) :=
  Transition.exists_some_and (by decide +kernel) fun _ hrun _ =>
    run_delivers_adding sampleSys_fresh (by decide +kernel) hrun

/-- After the message was received, service 2 is added, and the receiving task goes on. -/
def sampleReceivedTwice : List (Side × Act) :=
  sampleShort ++ ((Side.a, Act.addService 2) :: (List.replicate 31 (Side.a, Act.rx) ++
    List.replicate 4 (Side.a, Act.svc 1)))

/-- The service receives the message a second time. -/
theorem addService_duplicates : sampleSys.Fresh ∧
    ((sampleSys.run sampleShm sampleReceivedTwice).map fun y =>
      ((y.dir .a).sentTo 1, (y.dir .a).delivered 1)) =
    some ([sampleMsg], [sampleMsg.received (sampleShm .a), sampleMsg.received (sampleShm .a)]) :=
  ⟨sampleSys_fresh, by decide +kernel⟩

end Adding

end PineVoice.Ipc
