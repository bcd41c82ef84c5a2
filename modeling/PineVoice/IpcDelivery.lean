import PineVoice.IpcService

/-!
# Delivery between the cores

Every step of either core keeps the state of both links, so each service has received the first of
the messages sent to it. When no task and no interrupt can go on, nothing is left on the way: the
packet that a service waits for under `rx_mutex` is the next one that the receiving task hands on.
-/

namespace PineVoice.Ipc

open Function List

/-- The state of a link and of the services behind it. -/
structure Link (shm : Shm) (s0 : ℕ) (d : Dir) : Prop where
  /-- The packets under way. -/
  flow : Flow shm s0 d
  /-- Messages go to services that exist. -/
  registered : ∀ m ∈ d.sent, m.serviceId ∈ d.registered
  /-- The services. -/
  served : ∀ id, Served shm d id
  /-- The holder of `rx_mutex` is collecting. -/
  mutex : ∀ id, d.rxMutex = some id → ∃ c, (d.svc id).pc = .collect c
  /-- There is nothing for a service that does not exist. -/
  unused : ∀ id, id ∉ d.registered → d.svc id = Service.empty

section Links

variable {shm : Shm} {s0 : ℕ} {d d' : Dir}

theorem Link.fresh (h : d.Fresh) : Link shm d.seq d where
  flow := Flow.fresh h
  registered := by
    rw [h.sent]
    exact fun m hm => absurd hm not_mem_nil
  served := by
    intro id
    refine ⟨[], [], by rw [Dir.sentTo, h.sent]; rfl, h.delivered id, ?_⟩
    rw [h.svc, Dir.laterFor, Dir.packets, h.sent]
    show [] ++ (List.drop d.taken []).filter _ = []
    rw [drop_nil]
    rfl
  mutex := by
    intro id hid
    rw [h.rxMutex] at hid
    cases hid
  unused := fun id _ => h.svc id

/-- A step that leaves the services alone. -/
theorem Link.of_view (h : Link shm s0 d) (hflow : Flow shm s0 d') (hview : d'.view = d.view) :
    Link shm s0 d' := by
  have hserved : ∀ id, Served shm d' id := fun id => (h.served id).congr hview
  simp only [Dir.view, Prod.mk.injEq] at hview
  obtain ⟨hsent, hsvc, -, -, hreg, hmutex⟩ := hview
  refine ⟨hflow, ?_, hserved, ?_, ?_⟩
  · rw [hsent, hreg]
    exact h.registered
  · rw [hmutex, hsvc]
    exact h.mutex
  · rw [hreg, hsvc]
    exact h.unused

variable {ch ch' : Option Holder}

section

variable (h : Link shm s0 d)
include h

theorem Link.txStep (hstep : d.txStep shm ch = some (d', ch')) : Link shm s0 d' :=
  h.of_view (h.flow.txStep hstep) (txStep_view hstep)

theorem Link.dataStep (hstep : d.dataStep = some d') : Link shm s0 d' :=
  h.of_view (h.flow.dataStep hstep) (dataStep_view hstep)

theorem Link.ackStep (hstep : d.ackStep = some d') : Link shm s0 d' :=
  h.of_view (h.flow.ackStep hstep) (ackStep_view hstep)

/-- The packets are for services that exist. -/
theorem Link.packet_registered {p : Packet} (hp : p ∈ d.packets shm) :
    p.serviceId ∈ d.registered := by
  obtain ⟨m, hm, data, rfl⟩ := mem_dir_packets hp
  exact h.registered m hm

theorem Link.rxStep (hstep : d.rxStep ch = some (d', ch')) : Link shm s0 d' := by
  have hflow := h.flow.rxStep hstep
  rcases rxStep_view hstep with hview | ⟨p, hrx, hsent, hdel, htaken, hreg, hmutex, hsvc⟩
  · exact h.of_view hflow hview
  · have hp := h.flow.handed hrx
    have hin := h.packet_registered (mem_of_getElem? hp)
    have hpush := hsvc hin
    refine ⟨hflow, ?_, fun id => ?_, fun id hid => ?_, fun id hid => ?_⟩
    · rw [hsent, hreg]
      exact h.registered
    · obtain ⟨done, todo, hsplit, hdone, hawaits⟩ := h.served id
      obtain ⟨hstream, hpc⟩ := stream_handOn id hp hsent htaken hpush
      refine ⟨done, todo, ?_, ?_, ?_⟩
      · rw [Dir.sentTo, hsent]
        exact hsplit
      · rw [hdel]
        exact hdone
      · rw [hstream, hpc]
        exact hawaits
    · rw [hmutex] at hid
      obtain ⟨c, hc⟩ := h.mutex id hid
      exact ⟨c, (stream_handOn id hp hsent htaken hpush).2.trans hc⟩
    · rw [hreg] at hid
      have hne : id ≠ p.serviceId := fun heq => hid (heq ▸ hin)
      rw [hpush, Dir.pushed, update_of_ne hne]
      exact h.unused id hid

theorem Link.svcStep {id : ℕ} (hstep : d.svcStep id = some d') : Link shm s0 d' := by
  have hflow := h.flow.svcStep hstep
  have hserved := Served.svcStep h.served hstep
  have hunused : ∀ s, d.svc id ≠ Service.empty → ∀ i, i ∉ d.registered →
      update d.svc id s i = Service.empty := by
    intro s hne i hi
    have hid : i ≠ id := fun heq => hne (heq ▸ h.unused i hi)
    rw [update_of_ne hid]
    exact h.unused i hi
  have hmutex : ∀ s i, i ≠ id → d.rxMutex = some i →
      ∃ c, (update d.svc id s i).pc = .collect c := by
    intro s i hi hmu
    rw [update_of_ne hi]
    exact h.mutex i hmu
  have hholder : ∀ s, (∀ c, (d.svc id).pc ≠ .collect c) → ∀ i, d.rxMutex = some i →
      ∃ c, (update d.svc id s i).pc = .collect c := by
    intro s hno i hi
    refine hmutex s i (fun heq => ?_) hi
    obtain ⟨c, hc⟩ := h.mutex id (heq ▸ hi)
    exact hno c hc
  cases svcStep_move hstep with
  | pop hpc hqueue =>
    refine ⟨hflow, h.registered, hserved, hholder _ fun c hc => ?_, hunused _ fun he => ?_⟩
    · rw [hpc] at hc
      cases hc
    · rw [he] at hqueue
      cases hqueue
  | @lock p hpc hfree =>
    refine ⟨hflow, h.registered, hserved, fun i hi => ?_, hunused _ fun he => ?_⟩
    · cases hi
      exact ⟨_, by show (update d.svc id _ id).pc = _; rw [update_self]⟩
    · rw [he] at hpc
      cases hpc
  | add hpc hleft hqueue =>
    refine ⟨hflow, h.registered, hserved, fun i hi => ?_, hunused _ fun he => ?_⟩
    · rcases eq_or_ne i id with rfl | hne
      · exact ⟨_, by show (update d.svc i _ i).pc = _; rw [update_self]⟩
      · exact hmutex _ i hne hi
    · rw [he] at hqueue
      cases hqueue
  | finish hpc hleft =>
    refine ⟨hflow, h.registered, hserved, fun i hi => (nomatch hi), hunused _ fun he => ?_⟩
    rw [he] at hpc
    cases hpc
  | process hpc =>
    refine ⟨hflow, h.registered, hserved, hholder _ fun c hc => ?_, hunused _ fun he => ?_⟩
    · rw [hpc] at hc
      cases hc
    · rw [he] at hpc
      cases hpc

/-- A message for a service that exists is sent. -/
theorem Link.begin (htx : d.tx = .idle) {m : Message} (hm : m.serviceId ∈ d.registered) :
    Link shm s0 (d.begin shm m) := by
  refine ⟨h.flow.begin htx m, fun m' hm' => ?_, fun id => ?_, h.mutex, h.unused⟩
  · rcases List.mem_append.mp hm' with hold | hnew
    · exact h.registered m' hold
    · rw [List.mem_singleton.mp hnew]
      exact hm
  · obtain ⟨done, todo, hsplit, hdone, hawaits⟩ := h.served id
    have hle : d.taken ≤ (d.packets shm).length := by
      have hcount := h.flow.count
      have hposted := h.flow.posted_le
      omega
    have hmine : ∀ p ∈ m.packets shm, p.serviceId = m.serviceId := by
      intro p hp
      obtain ⟨data, rfl⟩ := mem_packets hp
      rfl
    have hlater : (d.begin shm m).laterFor shm id =
        d.laterFor shm id ++ (m.packets shm).filter (·.serviceId = id) := by
      rw [Dir.laterFor, packets_begin]
      show ((d.packets shm ++ m.packets shm).drop d.taken).filter _ = _
      rw [drop_append_of_le_length hle, filter_append]
      rfl
    by_cases hid : m.serviceId = id
    · refine ⟨done, todo ++ [m], ?_, hdone, ?_⟩
      · show (d.sent ++ [m]).filter _ = _
        rw [filter_append, filter_singleton, decide_eq_true hid, ← append_assoc, ← hsplit]
        rfl
      · have hall : (m.packets shm).filter (·.serviceId = id) = m.packets shm :=
          List.filter_eq_self.mpr fun p hp => by simpa [hmine p hp] using hid
        have happend := hawaits.append [m]
        rw [flatMap_singleton, append_assoc] at happend
        rw [hlater, hall]
        exact happend
    · refine ⟨done, todo, ?_, hdone, ?_⟩
      · show (d.sent ++ [m]).filter _ = _
        rw [filter_append, filter_singleton, decide_eq_false hid, cond_false, append_nil]
        exact hsplit
      · have hnone : (m.packets shm).filter (·.serviceId = id) = [] :=
          List.filter_eq_nil_iff.mpr fun p hp => by simpa [hmine p hp] using hid
        rw [hlater, hnone, append_nil]
        exact hawaits

end

end Links

section Mutex

variable {shm : Shm} {d d' : Dir} {ch ch' : Option Holder}

/-- The sender is between taking and releasing `ch_mutex`. -/
def Tx.Inside : Tx → Prop
  | .put _ _ _ | .trigger _ | .unlock _ => True
  | _ => False

/-- The receiver is between taking and releasing `ch_mutex`. -/
def Rx.Inside : Rx → Prop
  | .get _ | .ack _ | .unlock _ => True
  | _ => False

/-- The sender takes and releases `ch_mutex` for itself only. -/
theorem txStep_mutex (h : ch = some .tx → d.tx.Inside)
    (hstep : d.txStep shm ch = some (d', ch')) :
    d'.rx = d.rx ∧ (ch' = some .rx → ch = some .rx) ∧ (ch' = some .tx → d'.tx.Inside) := by
  revert hstep
  fun_cases Dir.txStep shm d ch <;> rintro ⟨⟩
  case case2 htx _ _ | case3 htx _ | case4 htx _ =>
    rw [htx] at h
    exact ⟨rfl, fun hc => hc, fun hc => absurd (h hc) id⟩
  case case6 => exact ⟨rfl, by simp, fun _ => trivial⟩
  case case8 | case9 | case10 => exact ⟨rfl, fun hc => hc, fun _ => trivial⟩
  case case11 => exact ⟨rfl, by simp, by simp⟩

/-- The receiver takes and releases `ch_mutex` for itself only. -/
theorem rxStep_mutex (h : ch = some .rx → d.rx.Inside)
    (hstep : d.rxStep ch = some (d', ch')) :
    d'.tx = d.tx ∧ (ch' = some .tx → ch = some .tx) ∧ (ch' = some .rx → d'.rx.Inside) := by
  revert hstep
  fun_cases Dir.rxStep d ch <;> rintro ⟨⟩
  case case1 hrx _ | case9 hrx _ | case10 hrx _ | case11 hrx _ _ _ | case13 hrx _ =>
    rw [hrx] at h
    exact ⟨rfl, fun hc => hc, fun hc => absurd (h hc) id⟩
  case case3 => exact ⟨rfl, by simp, fun _ => trivial⟩
  case case5 | case6 | case7 => exact ⟨rfl, fun hc => hc, fun _ => trivial⟩
  case case8 => exact ⟨rfl, by simp, by simp⟩

theorem svcStep_pcs {id : ℕ} (hstep : d.svcStep id = some d') : d'.tx = d.tx ∧ d'.rx = d.rx := by
  cases svcStep_move hstep <;> exact ⟨rfl, rfl⟩

theorem dataStep_pcs (hstep : d.dataStep = some d') : d'.tx = d.tx ∧ d'.rx = d.rx := by
  unfold Dir.dataStep at hstep
  split at hstep <;> cases hstep
  exact ⟨rfl, rfl⟩

theorem ackStep_pcs (hstep : d.ackStep = some d') : d'.tx = d.tx ∧ d'.rx = d.rx := by
  unfold Dir.ackStep at hstep
  split at hstep <;> cases hstep
  exact ⟨rfl, rfl⟩

end Mutex

section Systems

variable {s : Side} {d : Dir}

@[simp] theorem other_ne (s : Side) : s.other ≠ s := by cases s <;> decide

@[simp] theorem other_other (s : Side) : s.other.other = s := by cases s <;> rfl

theorem eq_other {t : Side} (h : t ≠ s) : t = s.other := by
  cases s <;> cases t <;> first | rfl | exact absurd rfl h

/-- Both links are as they should be, and the holder of a `ch_mutex` can go on. -/
structure Good (shm : Side → Shm) (y : Sys) : Prop where
  /-- The links. -/
  link : ∀ s, ∃ s0, Link (shm s) s0 (y.dir s)
  /-- A sender that holds the mutex of its core. -/
  chTx : ∀ s, y.ch s = some .tx → (y.dir s).tx.Inside
  /-- A receiver that holds the mutex of its core. -/
  chRx : ∀ s, y.ch s.other = some .rx → (y.dir s).rx.Inside

/-- A message is for a service of the peer, and a service is added only while the read
event is set. -/
def StepOk (y : Sys) (s : Side) : Act → Prop
  | .send m => m.serviceId ∈ (y.dir s).registered
  | .addService _ => (y.dir s).readEvt = true
  | _ => True

instance (y : Sys) (s : Side) : ∀ act, Decidable (StepOk y s act)
  | .send m => inferInstanceAs (Decidable (m.serviceId ∈ (y.dir s).registered))
  | .addService _ => inferInstanceAs (Decidable ((y.dir s).readEvt = true))
  | .tx | .dataIrq | .ackIrq | .rx | .svc _ => isTrue trivial

variable {shm : Side → Shm} {y y' : Sys}

theorem Good.fresh (h : y.Fresh) : Good shm y where
  link s := ⟨_, Link.fresh (h.dir s)⟩
  chTx s hs := by
    rw [h.ch] at hs
    cases hs
  chRx s hs := by
    rw [h.ch] at hs
    cases hs

/-- The links after a step in one direction. -/
theorem Good.link_update (h : Good shm y) (hlink : ∃ s0, Link (shm s) s0 d) (t : Side) :
    ∃ s0, Link (shm t) s0 (update y.dir s d t) := by
  rcases eq_or_ne t s with rfl | ht
  · rw [update_self]
    exact hlink
  · rw [update_of_ne ht]
    exact h.link t

/-- A step in one direction that leaves the mutexes alone. -/
theorem Good.setDir (h : Good shm y) (hlink : ∃ s0, Link (shm s) s0 d)
    (htx : (y.dir s).tx.Inside → d.tx.Inside) (hrx : d.rx = (y.dir s).rx) :
    Good shm (y.setDir s d) where
  link := h.link_update hlink
  chTx t hch := by
    show (update y.dir s d t).tx.Inside
    rcases eq_or_ne t s with rfl | ht
    · rw [update_self]
      exact htx (h.chTx t hch)
    · rw [update_of_ne ht]
      exact h.chTx t hch
  chRx t hch := by
    show (update y.dir s d t).rx.Inside
    rcases eq_or_ne t s with rfl | ht
    · rw [update_self, hrx]
      exact h.chRx t hch
    · rw [update_of_ne ht]
      exact h.chRx t hch

theorem Good.tx (h : Good shm y) {x : Dir × Option Holder}
    (hstep : (y.dir s).txStep (shm s) (y.ch s) = some x) : Good shm (y.setBoth s s x) := by
  obtain ⟨d, ch⟩ := x
  obtain ⟨s0, hlink⟩ := h.link s
  obtain ⟨hrx, hother, hinside⟩ := txStep_mutex (h.chTx s) hstep
  refine ⟨h.link_update ⟨s0, hlink.txStep hstep⟩, fun t hch => ?_, fun t hch => ?_⟩
  · show (update y.dir s d t).tx.Inside
    have hch' : update y.ch s ch t = some .tx := hch
    rcases eq_or_ne t s with rfl | ht
    · rw [update_self] at hch' ⊢
      exact hinside hch'
    · rw [update_of_ne ht] at hch' ⊢
      exact h.chTx t hch'
  · show (update y.dir s d t).rx.Inside
    have hch' : update y.ch s ch t.other = some .rx := hch
    rcases eq_or_ne t s with rfl | ht
    · rw [update_of_ne (other_ne t)] at hch'
      rw [update_self, hrx]
      exact h.chRx t hch'
    · obtain rfl : s = t.other := eq_other ht.symm
      rw [update_self] at hch'
      rw [update_of_ne ht]
      exact h.chRx t (hother hch')

theorem Good.rx (h : Good shm y) {x : Dir × Option Holder}
    (hstep : (y.dir s).rxStep (y.ch s.other) = some x) : Good shm (y.setBoth s s.other x) := by
  obtain ⟨d, ch⟩ := x
  obtain ⟨s0, hlink⟩ := h.link s
  obtain ⟨htx, hother, hinside⟩ := rxStep_mutex (h.chRx s) hstep
  refine ⟨h.link_update ⟨s0, hlink.rxStep hstep⟩, fun t hch => ?_, fun t hch => ?_⟩
  · show (update y.dir s d t).tx.Inside
    have hch' : update y.ch s.other ch t = some .tx := hch
    rcases eq_or_ne t s with rfl | ht
    · rw [update_of_ne (other_ne t).symm] at hch'
      rw [update_self, htx]
      exact h.chTx t hch'
    · obtain rfl : t = s.other := eq_other ht
      rw [update_self] at hch'
      rw [update_of_ne ht]
      exact h.chTx _ (hother hch')
  · show (update y.dir s d t).rx.Inside
    have hch' : update y.ch s.other ch t.other = some .rx := hch
    rcases eq_or_ne t s with rfl | ht
    · rw [update_self] at hch' ⊢
      exact hinside hch'
    · obtain rfl : t = s.other := eq_other ht
      rw [other_other, update_of_ne (other_ne s).symm] at hch'
      rw [update_of_ne ht]
      exact h.chRx _ (by rw [other_other]; exact hch')

/-- Adding a service while the read event is set changes nothing but the list. -/
theorem Link.addService {shm : Shm} {s0 : ℕ} {d' : Dir} {id : ℕ} (h : Link shm s0 d)
    (hread : d.readEvt = true) (hstep : d.addService id = some d') :
    Link shm s0 d' ∧ d'.tx = d.tx ∧ d'.rx = d.rx := by
  unfold Dir.addService at hstep
  split_ifs at hstep with hid
  have hsvc : (d.setSvc id Service.empty).svc = d.svc := by
    rw [← h.unused id hid]
    exact update_eq_self id d.svc
  have hd' : d' = { d with registered := d.registered ++ [id] } := by
    cases hstep
    show { d with svc := _, registered := _, readEvt := true } = _
    rw [hsvc, ← hread]
  subst hd'
  refine ⟨⟨h.flow.frame d.svc d.rxMutex d.delivered _, fun m hm => ?_, h.served, h.mutex,
    fun i hi => ?_⟩, rfl, rfl⟩
  · exact mem_append_left _ (h.registered m hm)
  · exact h.unused i fun hmem => hi (mem_append_left _ hmem)

/-- Every step keeps both links. -/
theorem Good.step (h : Good shm y) {act : Act} (hok : StepOk y s act)
    (hstep : y.step shm s act = some y') : Good shm y' := by
  obtain ⟨s0, hlink⟩ := h.link s
  cases act with
  | send m =>
    obtain ⟨htx, -, rfl⟩ := step_send hstep
    refine h.setDir ⟨s0, hlink.begin htx hok⟩ (fun hin => ?_) rfl
    rw [htx] at hin
    exact absurd hin id
  | tx =>
    obtain ⟨x, hx, rfl⟩ := Option.map_eq_some_iff.mp hstep
    exact h.tx hx
  | dataIrq =>
    obtain ⟨d, hd, rfl⟩ := Option.map_eq_some_iff.mp hstep
    obtain ⟨htx, hrx⟩ := dataStep_pcs hd
    exact h.setDir ⟨s0, hlink.dataStep hd⟩ (fun hin => htx ▸ hin) hrx
  | ackIrq =>
    obtain ⟨d, hd, rfl⟩ := Option.map_eq_some_iff.mp hstep
    obtain ⟨htx, hrx⟩ := ackStep_pcs hd
    exact h.setDir ⟨s0, hlink.ackStep hd⟩ (fun hin => htx ▸ hin) hrx
  | rx =>
    obtain ⟨x, hx, rfl⟩ := Option.map_eq_some_iff.mp hstep
    exact h.rx hx
  | svc id =>
    obtain ⟨d, hd, rfl⟩ := Option.map_eq_some_iff.mp hstep
    obtain ⟨htx, hrx⟩ := svcStep_pcs hd
    exact h.setDir ⟨s0, hlink.svcStep hd⟩ (fun hin => htx ▸ hin) hrx
  | addService id =>
    obtain ⟨d, hd, rfl⟩ := Option.map_eq_some_iff.mp hstep
    obtain ⟨hlink', htx, hrx⟩ := hlink.addService hok hd
    exact h.setDir ⟨s0, hlink'⟩ (fun hin => htx ▸ hin) hrx

end Systems

end PineVoice.Ipc
