import PineVoice.IpcLedger

/-!
# Synchronous calls between the cores

Tasks of both cores call `ipc_message_send` with `MESSAGE_SYNC`, and the handlers of the services
answer with `ipc_message_ack`, in any order. Every step is one of the ledger of each core, so a
call that returns has the bytes that were put into the answer to its own request.
-/

namespace PineVoice.Ipc

open Function List

/-- What `ipc_message_ack` sends for a message whose `resp_len` was not changed. -/
def Answers (r : Received) (a : Message) : Prop :=
  a.kind = .ack ∧ a.cached = r.flag.testBit 2 ∧ a.serviceId = r.serviceId ∧
    a.command = r.command ∧ a.payload.length = r.respLen ∧ a.respLen = r.respLen ∧
    a.queue = r.queue

instance (r : Received) (a : Message) : Decidable (Answers r a) := by
  unfold Answers
  infer_instance

/-- The link with the queues of both cores, and what was answered and returned. -/
structure Net where
  /-- The link. -/
  sys : Sys
  /-- The queues of the calls of a core. -/
  queues : Side → ℕ → Option Queue
  /-- The answers to the requests of a core. -/
  answer : Side → ℕ × ℕ → Option (List UInt8)
  /-- `resp_data` of the calls of a core that have returned. -/
  filled : Side → ℕ × ℕ → Option (List UInt8)

/-- What can happen next. -/
inductive NetAct where
  /-- A task makes the queue of a call. -/
  | newQueue (h : ℕ)
  /-- A task obtains `tx_mutex` for a synchronous message. -/
  | call (m : Message)
  /-- A task obtains `tx_mutex` for an asynchronous message. -/
  | send (m : Message)
  /-- A handler of the peer obtains `tx_mutex` for an answer. -/
  | ack (k : ℕ × ℕ) (a : Message)
  /-- A step of the link. -/
  | link (act : Act)
  /-- A call takes the answer from its queue and returns. -/
  | ret (h : ℕ)

section Step

variable (shm : Side → Shm) (w : Net)

/-- Replace a queue. -/
def Net.setQueue (s : Side) (h : ℕ) (q : Option Queue) : Side → ℕ → Option Queue :=
  update w.queues s (update (w.queues s) h q)

/-- `ipc_service_entry` of the peer puts an answer into the queue it names. -/
def Net.arrive (s : Side) : Act → Side → ℕ → Option Queue
  | .svc id =>
    match ((w.sys.dir s).svc id).pc with
    | .process r =>
      if isAck r.flag then
        w.setQueue s.other r.queue ((w.queues s.other r.queue).map fun q => q.put r.payload)
      else w.queues
    | _ => w.queues
  | _ => w.queues

/-- A step for a core; nothing if it cannot be taken. A handler answers a synchronous
request once. -/
def Net.step (s : Side) : NetAct → Option Net
  | .newQueue h =>
    if w.queues s h = none then some { w with queues := w.setQueue s h (some ⟨none, []⟩) }
    else none
  | .call m =>
    match w.queues s m.queue with
    | some ⟨none, inbox⟩ =>
      if m.kind = .sync then
        (w.sys.step shm s (.send m)).map fun y => { w with
          sys := y
          queues := w.setQueue s m.queue (some ⟨some
            ⟨(m.serviceId, ((w.sys.dir s).sentTo m.serviceId).length), m.respLen⟩, inbox⟩) }
      else none
    | _ => none
  | .send m =>
    if m.kind = .async then (w.sys.step shm s (.send m)).map fun y => { w with sys := y }
    else none
  | .ack k a =>
    match ((w.sys.dir s).delivered k.1)[k.2]? with
    | some r =>
      if isSync r.flag ∧ ¬isAck r.flag ∧ Answers r a ∧ w.answer s k = none then
        (w.sys.step shm s.other (.send a)).map fun y => { w with
          sys := y
          answer := update w.answer s (update (w.answer s) k (some a.payload)) }
      else none
    | none => none
  | .link act =>
    if act.internal then
      (w.sys.step shm s act).map fun y => { w with sys := y, queues := w.arrive s act }
    else none
  | .ret h =>
    match w.queues s h with
    | some ⟨some c, bytes :: _⟩ =>
      if bytes.length = c.respLen then some { w with
        queues := w.setQueue s h none
        filled := update w.filled s (update (w.filled s) c.key (some bytes)) }
      else none
    | _ => none

/-- A run of steps, each of which can be taken. -/
def Net.run (w : Net) : List (Side × NetAct) → Option Net
  | [] => some w
  | x :: xs => (w.step shm x.1 x.2).bind fun w' => w'.run xs

end Step

/-- Nothing is under way and no call was made. -/
structure Net.Fresh (w : Net) : Prop where
  /-- The link. -/
  sys : w.sys.Fresh
  /-- There are no queues. -/
  queues : ∀ s h, w.queues s h = none
  /-- Nothing was answered. -/
  answer : ∀ s k, w.answer s k = none
  /-- Nothing has returned. -/
  filled : ∀ s k, w.filled s k = none

/-- The answers of a service that are on the way in a direction. -/
def Dir.acks (d : Dir) (id : ℕ) : List Message :=
  ((d.sentTo id).drop (d.delivered id).length).filter (·.kind = .ack)

/-- The ledger of the calls of a core. -/
def Net.ledger (w : Net) (s : Side) : Ledger where
  sent := (w.sys.dir s).sentTo
  got id := ((w.sys.dir s).delivered id).length
  acks := (w.sys.dir s.other).acks
  queues := w.queues s
  answer := w.answer s
  filled := w.filled s

section Directions

variable {shm : Shm} {s0 : ℕ} {d d' : Dir}

theorem begin_sentTo (d : Dir) (m : Message) : (d.begin shm m).sentTo =
    update d.sentTo m.serviceId (d.sentTo m.serviceId ++ [m]) := by
  funext id
  show (d.sent ++ [m]).filter (·.serviceId = id) = _
  rw [filter_append]
  rcases eq_or_ne id m.serviceId with rfl | hne
  · rw [update_self, filter_singleton, decide_eq_true rfl]
    rfl
  · rw [update_of_ne hne, filter_singleton, decide_eq_false (Ne.symm hne)]
    exact append_nil _

theorem Link.delivered_length_le (h : Link shm s0 d) (id : ℕ) :
    (d.delivered id).length ≤ (d.sentTo id).length := by
  obtain ⟨done, todo, hsplit, hdone, -⟩ := h.served id
  rw [hdone, hsplit, length_map, length_append]
  exact Nat.le_add_right _ _

/-- A new message is on the way if it is an answer. -/
theorem Link.begin_acks (h : Link shm s0 d) (m : Message) : (d.begin shm m).acks =
    if m.kind = .ack then update d.acks m.serviceId (d.acks m.serviceId ++ [m]) else d.acks := by
  funext id
  have hle := h.delivered_length_le id
  show (((d.begin shm m).sentTo id).drop (d.delivered id).length).filter _ = _
  rw [begin_sentTo]
  rcases eq_or_ne id m.serviceId with rfl | hne
  · rw [update_self, drop_append_of_le_length hle, filter_append, filter_singleton]
    split_ifs with hack
    · rw [update_self, decide_eq_true hack]
      rfl
    · rw [decide_eq_false hack]
      exact append_nil _
  · rw [update_of_ne hne]
    split_ifs
    · rw [update_of_ne hne]
      rfl
    · rfl

/-- The message that a service is about to hand on. -/
theorem Link.next_message (h : Link shm s0 d) {id : ℕ} {r : Received}
    (hpc : (d.svc id).pc = .process r) :
    ∃ m rest, (d.sentTo id).drop (d.delivered id).length = m :: rest ∧ r = m.received shm ∧
      (d.sentTo id).drop ((d.delivered id).length+1) = rest := by
  obtain ⟨done, todo, hsplit, hdone, hawaits⟩ := h.served id
  rw [hpc] at hawaits
  obtain ⟨m, ms, rfl, hr, -⟩ := hawaits
  have hdrop : (d.sentTo id).drop (d.delivered id).length = m :: ms := by
    rw [hdone, hsplit, length_map, drop_left]
  refine ⟨m, ms, hdrop, hr, ?_⟩
  rw [← drop_drop, hdrop]
  rfl

end Directions

section Handing

variable {shm : Side → Shm} {y y' : Sys} {s : Side} {act : Act}

theorem view_delivered {d d' : Dir} (h : d'.view = d.view) : d'.delivered = d.delivered := by
  simp only [Dir.view, Prod.mk.injEq] at h
  exact h.2.2.1

/-- A step of what is under way hands on a message, or the services have what they had. -/
theorem step_delivered (hact : act.internal = true) (hstep : y.step shm s act = some y') :
    ((y'.dir s).delivered = (y.dir s).delivered ∧
      ∀ id r, act = .svc id → ((y.dir s).svc id).pc ≠ .process r) ∨
    ∃ id r, act = .svc id ∧ ((y.dir s).svc id).pc = .process r ∧
      (y'.dir s).delivered = update (y.dir s).delivered id ((y.dir s).delivered id ++ [r]) := by
  have hmove := step_move hact hstep
  generalize y'.dir s = d at hmove ⊢
  cases hmove with
  | tx hx => exact .inl ⟨view_delivered (txStep_view hx), nofun⟩
  | dataIrq hd => exact .inl ⟨view_delivered (dataStep_view hd), nofun⟩
  | ackIrq hd => exact .inl ⟨view_delivered (ackStep_view hd), nofun⟩
  | rx hx =>
    refine .inl ⟨?_, nofun⟩
    rcases rxStep_view hx with hsame | ⟨p, -, -, hdel, -⟩
    · exact view_delivered hsame
    · exact hdel
  | @svc _ id hd =>
    have hother : ∀ pc, ((y.dir s).svc id).pc = pc → (∀ r, pc ≠ .process r) → ∀ i r,
        Act.svc id = .svc i → ((y.dir s).svc i).pc ≠ .process r := by
      intro pc hpc hno i r hi
      cases hi
      rw [hpc]
      exact hno r
    cases svcStep_move hd with
    | pop hpc => exact .inl ⟨rfl, hother _ hpc nofun⟩
    | lock hpc => exact .inl ⟨rfl, hother _ hpc nofun⟩
    | add hpc => exact .inl ⟨rfl, hother _ hpc nofun⟩
    | finish hpc => exact .inl ⟨rfl, hother _ hpc nofun⟩
    | process hpc => exact .inr ⟨id, _, rfl, hpc, rfl⟩

/-- Without a message that is handed on, the queues stay. -/
theorem arrive_none {w : Net}
    (h : ∀ id r, act = .svc id → ((w.sys.dir s).svc id).pc ≠ .process r) :
    w.arrive s act = w.queues := by
  unfold Net.arrive
  split
  · rename_i id
    split
    · rename_i r hpc
      exact absurd hpc (h id r rfl)
    · rfl
  · rfl

end Handing

section Calls

variable {shm : Side → Shm} {w w' : Net} {s : Side}

theorem forall_side {P : Side → Prop} (s : Side) (hs : P s) (ho : P s.other) (t : Side) : P t := by
  rcases eq_or_ne t s with rfl | ht
  · exact hs
  · rw [eq_other ht]
    exact ho

theorem setQueue_self (w : Net) (s : Side) (h : ℕ) (q : Option Queue) :
    w.setQueue s h q s = update (w.queues s) h q := update_self _ _ _

theorem setQueue_other (w : Net) (s : Side) (h : ℕ) (q : Option Queue) :
    w.setQueue s h q s.other = w.queues s.other := update_of_ne (other_ne s) _ _

/-- The links and the ledgers of both cores. -/
structure Net.Sound (shm : Side → Shm) (w : Net) : Prop where
  /-- The links. -/
  good : Good shm w.sys
  /-- The services. -/
  same : w.sys.SameServices
  /-- The ledgers. -/
  ledger : ∀ s, (w.ledger s).Ok

theorem Net.Sound.fresh (h : w.Fresh) : w.Sound shm where
  good := Good.fresh h.sys
  same := h.sys.sameServices
  ledger s := by
    have hsent : ∀ t, (w.sys.dir t).sentTo = fun _ => [] := by
      intro t
      funext id
      rw [Dir.sentTo, (h.sys.dir t).sent]
      rfl
    have hacks : (w.ledger s).acks = fun _ => [] := by
      funext id
      show ((_ : List Message).drop _).filter _ = []
      rw [hsent, drop_nil]
      rfl
    refine ⟨fun id a ha => ?_, fun id => ?_, fun k m hm _ => ?_, fun i q hq => ?_,
      fun i q c hq => ?_, fun k bytes hk => ?_, fun k bytes hk => ?_⟩
    · rw [hacks] at ha
      exact absurd ha not_mem_nil
    · rw [hacks]
      exact nodup_nil
    · have hget : ((w.sys.dir s).sentTo k.1)[k.2]? = some m := hm.1
      rw [hsent] at hget
      cases hget
    · rw [show (w.ledger s).queues i = none from h.queues s i] at hq
      cases hq
    · rw [show (w.ledger s).queues i = none from h.queues s i] at hq
      cases hq
    · rw [show (w.ledger s).answer k = none from h.answer s k] at hk
      cases hk
    · rw [show (w.ledger s).filled k = none from h.filled s k] at hk
      cases hk

theorem send_ne_addService (m : Message) : ∀ id, Act.send m ≠ .addService id := nofun

variable {y : Sys} {act : Act} {i id : ℕ} {m : Message} {r : Received}

section

variable (h : w.Sound shm)
include h

theorem Net.Sound.sysStep (hadd : ∀ id, act ≠ .addService id)
    (hstep : w.sys.step shm s act = some y) : Good shm y ∧ y.SameServices :=
  ⟨h.good.step (h.same.stepOk hadd hstep) hstep, h.same.step hadd hstep⟩

theorem Net.Sound.newQueue (hstep : w.step shm s (.newQueue i) = some w') : w'.Sound shm := by
  obtain ⟨hfree, heq⟩ := Option.ite_none_right_eq_some.mp hstep
  cases heq
  refine ⟨h.good, h.same, forall_side s ?_ ?_⟩
  · have hok := (h.ledger s).newQueue hfree
    simp only [Net.ledger, setQueue_self] at hok ⊢
    exact hok
  · have hok := h.ledger s.other
    simp only [Net.ledger, setQueue_other] at hok ⊢
    exact hok

/-- The ledgers after a message, as far as the link is concerned. -/
theorem Net.Sound.sent (hstep : w.sys.step shm s (.send m) = some y) :
    (y.dir s).sentTo = (w.ledger s).push m ∧ (y.dir s).delivered = (w.sys.dir s).delivered ∧
      y.dir s.other = w.sys.dir s.other ∧
      (y.dir s).acks = if m.kind = .ack then update (w.sys.dir s).acks m.serviceId
        ((w.sys.dir s).acks m.serviceId ++ [m]) else (w.sys.dir s).acks := by
  obtain ⟨s0, hlink⟩ := h.good.link s
  obtain ⟨-, -, rfl⟩ := step_send hstep
  rw [setDir_self]
  exact ⟨begin_sentTo _ m, rfl, update_of_ne (other_ne s) _ _, hlink.begin_acks m⟩

/-- The link after a message that is not an answer. -/
theorem Net.Sound.asked (hkind : m.kind ≠ .ack) (hstep : w.sys.step shm s (.send m) = some y) :
    (Good shm y ∧ y.SameServices) ∧ (y.dir s).sentTo = (w.ledger s).push m ∧
      (y.dir s).delivered = (w.sys.dir s).delivered ∧ y.dir s.other = w.sys.dir s.other ∧
      (y.dir s).acks = (w.sys.dir s).acks := by
  obtain ⟨hsent, hdel, hother, hacks⟩ := h.sent hstep
  rw [if_neg hkind] at hacks
  exact ⟨h.sysStep (send_ne_addService m) hstep, hsent, hdel, hother, hacks⟩

theorem Net.Sound.send (hstep : w.step shm s (.send m) = some w') : w'.Sound shm := by
  obtain ⟨hkind, heq⟩ := Option.ite_none_right_eq_some.mp hstep
  obtain ⟨y, hy, rfl⟩ := Option.map_eq_some_iff.mp heq
  obtain ⟨⟨hgood, hsame⟩, hsent, hdel, hother, hacks⟩ := h.asked (by rw [hkind]; nofun) hy
  refine ⟨hgood, hsame, forall_side s ?_ ?_⟩
  · have hok := (h.ledger s).send (m := m) (by rw [hkind]; nofun)
    simp only [Net.ledger, hsent, hdel, hother] at hok ⊢
    exact hok
  · have hok := h.ledger s.other
    simp only [Net.ledger, other_other, hother, hacks] at hok ⊢
    exact hok

theorem Net.Sound.call (hstep : w.step shm s (.call m) = some w') : w'.Sound shm := by
  simp only [Net.step] at hstep
  split at hstep
  · rename_i inbox hqueue
    obtain ⟨hkind, heq⟩ := Option.ite_none_right_eq_some.mp hstep
    obtain ⟨y, hy, rfl⟩ := Option.map_eq_some_iff.mp heq
    obtain ⟨⟨hgood, hsame⟩, hsent, hdel, hother, hacks⟩ := h.asked (by rw [hkind]; nofun) hy
    refine ⟨hgood, hsame, forall_side s ?_ ?_⟩
    · have hok := (h.ledger s).request hkind hqueue
      simp only [Net.ledger, hsent, hdel, hother, setQueue_self] at hok ⊢
      exact hok
    · have hok := h.ledger s.other
      simp only [Net.ledger, other_other, hother, hacks, setQueue_other] at hok ⊢
      exact hok
  · cases hstep

end

/-- A message that a service has received is the one with this number that was sent. -/
theorem Good.delivered_get (h : Good shm y) {n : ℕ} (hr : ((y.dir s).delivered id)[n]? = some r) :
    ∃ m, ((y.dir s).sentTo id)[n]? = some m ∧ r = m.received (shm s) ∧ m.serviceId = id := by
  obtain ⟨tail, htail⟩ := h.delivered_le s id
  have hlt := (List.getElem?_eq_some_iff.mp hr).1
  have hget : (((y.dir s).sentTo id).map (Message.received (shm s)))[n]? = some r := by
    rw [← htail, getElem?_append_left hlt, hr]
  rw [getElem?_map] at hget
  obtain ⟨m, hm, rfl⟩ := Option.map_eq_some_iff.mp hget
  refine ⟨m, hm, rfl, ?_⟩
  simpa using (List.mem_filter.mp (mem_of_getElem? hm)).2

theorem Net.Sound.ack {k : ℕ × ℕ} {a : Message} (h : w.Sound shm)
    (hstep : w.step shm s (.ack k a) = some w') : w'.Sound shm := by
  simp only [Net.step] at hstep
  split at hstep
  · rename_i r hr
    obtain ⟨⟨hsync, hack, hanswers, hnone⟩, heq⟩ := Option.ite_none_right_eq_some.mp hstep
    obtain ⟨y, hy, rfl⟩ := Option.map_eq_some_iff.mp heq
    obtain ⟨hgood, hsame⟩ := h.sysStep (send_ne_addService _) hy
    obtain ⟨hsent, hdel, hother, hacks⟩ := h.sent hy
    obtain ⟨hkind, -, hservice, -, hlen, -, hqueue⟩ := hanswers
    obtain ⟨m, hm, rfl, hid⟩ := h.good.delivered_get hr
    have hreq : (w.ledger s).IsRequest k m := by
      refine ⟨hm, ?_⟩
      have hsync' : isSync (m.kind.flag (m.cached || (shm s).cache)) = true := hsync
      have hack' : ¬isAck (m.kind.flag (m.cached || (shm s).cache)) = true := hack
      rw [isSync_flag] at hsync'
      rw [isAck_flag] at hack'
      cases hkind : m.kind <;> simp_all
    have hkey : a.serviceId = k.1 := hservice.trans hid
    rw [if_pos hkind, hkey] at hacks
    rw [other_other] at hother
    refine ⟨hgood, hsame, forall_side s ?_ ?_⟩
    · have hok := (h.ledger s).give hreq (List.getElem?_eq_some_iff.mp hr).1 hnone hqueue hlen
      simp only [Net.ledger, hother, hacks, update_self] at hok ⊢
      exact hok
    · have hok := (h.ledger s.other).send (m := a) (by rw [hkind]; nofun)
      simp only [Net.ledger, other_other, hsent, hdel, hother, update_of_ne (other_ne s)] at hok ⊢
      exact hok
  · cases hstep

theorem Net.Sound.ret (h : w.Sound shm) (hstep : w.step shm s (.ret i) = some w') :
    w'.Sound shm := by
  simp only [Net.step] at hstep
  split at hstep
  · rename_i c bytes more hqueue
    obtain ⟨-, heq⟩ := Option.ite_none_right_eq_some.mp hstep
    cases heq
    refine ⟨h.good, h.same, forall_side s ?_ ?_⟩
    · have hok := ((h.ledger s).ret hqueue).2
      simp only [Net.ledger, setQueue_self, update_self] at hok ⊢
      exact hok
    · have hok := h.ledger s.other
      simp only [Net.ledger, setQueue_other, update_of_ne (other_ne s)] at hok ⊢
      exact hok
  · cases hstep

/-- The answers on the way when a service hands on a message. -/
theorem acks_handOn {shm : Shm} {s0 : ℕ} {d d' : Dir} (h : Link shm s0 d)
    (hpc : (d.svc id).pc = .process r) (hsent : d'.sent = d.sent)
    (hdel : d'.delivered = update d.delivered id (d.delivered id ++ [r])) :
    ∃ m rest, r = m.received shm ∧ d'.acks = update d.acks id rest ∧
      d.acks id = if m.kind = .ack then m :: rest else rest := by
  obtain ⟨m, rest, hdrop, hr, hrest⟩ := h.next_message hpc
  refine ⟨m, rest.filter (·.kind = .ack), hr, ?_, ?_⟩
  · funext i
    rw [Dir.acks, Dir.sentTo, hsent, hdel]
    rcases eq_or_ne i id with rfl | hne
    · rw [update_self, update_self, length_append, ← hrest]
      rfl
    · rw [update_of_ne hne, update_of_ne hne]
      rfl
  · rw [Dir.acks, hdrop, filter_cons]
    simp

theorem Net.Sound.link (h : w.Sound shm) (hstep : w.step shm s (.link act) = some w') :
    w'.Sound shm := by
  obtain ⟨hact, heq⟩ := Option.ite_none_right_eq_some.mp hstep
  obtain ⟨y, hy, rfl⟩ := Option.map_eq_some_iff.mp heq
  have hadd : ∀ id, act ≠ .addService id := by
    rintro id rfl
    cases hact
  obtain ⟨hgood, hsame⟩ := h.sysStep hadd hy
  obtain ⟨s0, hlink⟩ := h.good.link s
  have hother := step_other hy
  have hsent := (step_move hact hy).sent.1
  have hsentTo : (y.dir s).sentTo = (w.sys.dir s).sentTo := by
    funext id
    rw [Dir.sentTo, hsent]
    rfl
  have hself := h.ledger s
  have hpeer := h.ledger s.other
  rcases step_delivered hact hy with ⟨hdel, hnone⟩ | ⟨id, r, rfl, hpc, hdel⟩
  · have hacks : (y.dir s).acks = (w.sys.dir s).acks := by
      funext id
      rw [Dir.acks, hsentTo, hdel]
      rfl
    rw [arrive_none hnone]
    refine ⟨hgood, hsame, forall_side s ?_ ?_⟩
    · simp only [Net.ledger, hsentTo, hdel, hother] at hself ⊢
      exact hself
    · simp only [Net.ledger, other_other, hother, hacks] at hpeer ⊢
      exact hpeer
  · obtain ⟨m, rest, rfl, hacks, hold⟩ := acks_handOn hlink hpc hsent hdel
    have hmore : ∀ i, ((w.sys.dir s).delivered i).length ≤ ((y.dir s).delivered i).length := by
      intro i
      rw [hdel]
      rcases eq_or_ne i id with rfl | hne
      · rw [update_self, length_append]
        exact Nat.le_add_right _ _
      · rw [update_of_ne hne]
    have hflag : isAck (m.received (shm s)).flag = (m.kind == .ack) := isAck_flag _ _
    have hown := hself.receive hmore
    by_cases hack : m.kind = .ack
    · have harrive : w.arrive s (.svc id) = w.setQueue s.other m.queue
          ((w.queues s.other m.queue).map fun q => q.put m.payload) := by
        simp only [Net.arrive, hpc, hflag, hack]
        rfl
      rw [if_pos hack] at hold
      have hnext : (w.ledger s.other).acks id = m :: rest := by
        simp only [Net.ledger, other_other]
        exact hold
      have hin := hpeer.arrive hnext
      rw [harrive]
      refine ⟨hgood, hsame, forall_side s ?_ ?_⟩
      · have hq := setQueue_other w s.other m.queue
          ((w.queues s.other m.queue).map fun q => q.put m.payload)
        rw [other_other] at hq
        simp only [Net.ledger, hsentTo, hother, hq] at hown ⊢
        exact hown
      · simp only [Net.ledger, other_other, hother, hacks, setQueue_self] at hin ⊢
        exact hin
    · have harrive : w.arrive s (.svc id) = w.queues := by
        have hno : isAck (m.received (shm s)).flag = false := by
          rw [hflag]
          exact beq_eq_false_iff_ne.mpr hack
        simp [Net.arrive, hpc, hno]
      rw [if_neg hack] at hold
      have hsameAcks : (y.dir s).acks = (w.sys.dir s).acks := by
        rw [hacks, ← hold, update_eq_self]
      rw [harrive]
      refine ⟨hgood, hsame, forall_side s ?_ ?_⟩
      · simp only [Net.ledger, hsentTo, hother] at hown ⊢
        exact hown
      · simp only [Net.ledger, other_other, hother, hsameAcks] at hpeer ⊢
        exact hpeer

theorem Net.Sound.step {act : NetAct} (h : w.Sound shm) (hstep : w.step shm s act = some w') :
    w'.Sound shm := by
  cases act with
  | newQueue i => exact h.newQueue hstep
  | call m => exact h.call hstep
  | send m => exact h.send hstep
  | ack k a => exact h.ack hstep
  | link act => exact h.link hstep
  | ret i => exact h.ret hstep

theorem Net.Sound.run : ∀ {xs : List (Side × NetAct)} {w w' : Net}, w.Sound shm →
    w.run shm xs = some w' → w'.Sound shm
  | [], _, _, h, hrun => Option.some.inj hrun ▸ h
  | _ :: _, _, _, h, hrun => by
    obtain ⟨z, hz, hrest⟩ := Option.bind_eq_some_iff.mp hrun
    exact (h.step hz).run hrest

/-- A call that has returned found the bytes of the answer to its own request, which the
service had received as it was sent. -/
theorem call_own_answer {xs : List (Side × NetAct)} {s : Side} {id n : ℕ} {bytes : List UInt8}
    (hfresh : w.Fresh) (hrun : w.run shm xs = some w')
    (hfilled : w'.filled s (id, n) = some bytes) :
    w'.answer s (id, n) = some bytes ∧ ∃ m, ((w'.sys.dir s).sentTo id)[n]? = some m ∧
      m.kind = .sync ∧ ((w'.sys.dir s).delivered id)[n]? = some (m.received (shm s)) := by
  have hsound := (Net.Sound.fresh hfresh).run hrun
  obtain ⟨hanswer, m, hm, hkind⟩ := (hsound.ledger s).returned (id, n) bytes hfilled
  have hgot : n < ((w'.sys.dir s).delivered id).length :=
    (hsound.ledger s).answered (id, n) bytes hanswer
  have hr := getElem?_eq_getElem hgot
  obtain ⟨m', hm', heq, -⟩ := hsound.good.delivered_get hr
  have hsame : m' = m := Option.some.inj (hm'.symm.trans hm)
  refine ⟨hanswer, m, hm, hkind, ?_⟩
  rw [hr, heq, hsame]

/-- The fresh link without calls. -/
def sampleNet : Net := ⟨sampleSys, fun _ _ => none, fun _ _ => none, fun _ _ => none⟩

/-- A synchronous message of two packets that waits for two bytes. -/
def sampleRequest : Message :=
  ⟨.sync, false, 1, 9, [3, 4], 2, 40, by decide, by decide, by decide⟩

/-- Its answer. -/
def sampleAnswer : Message :=
  ⟨.ack, false, 1, 9, [7, 8], 2, 40, by decide, by decide, by decide⟩

/-- The steps of the link for one of them. -/
def samplePackets (s : Side) : List (Side × NetAct) :=
  (packetSteps s 32 31 2 ++ packetSteps s 12 15 3).map fun x => (x.1, .link x.2)

/-- A call, its answer, and the return. -/
def sampleCall : List (Side × NetAct) :=
  (.a, .newQueue 40) :: (.a, .call sampleRequest) :: (samplePackets .a ++
    ((.a, .ack (1, 0) sampleAnswer) :: (samplePackets .b ++ [(.a, .ret 40)])))

theorem sampleNet_fresh : sampleNet.Fresh :=
  ⟨sampleSys_fresh, fun _ _ => rfl, fun _ _ => rfl, fun _ _ => rfl⟩

theorem call_own_answer_sample : ∃ w', sampleNet.run sampleShm sampleCall = some w' ∧
    w'.filled .a (1, 0) = some [7, 8] ∧ w'.answer .a (1, 0) = some [7, 8] ∧
    ∃ m, ((w'.sys.dir .a).sentTo 1)[0]? = some m ∧ m.kind = .sync ∧
      ((w'.sys.dir .a).delivered 1)[0]? = some (m.received (sampleShm .a)) :=
  Transition.exists_some_and (by decide +kernel) fun _ hrun hfilled =>
    call_own_answer sampleNet_fresh hrun hfilled

end Calls

end PineVoice.Ipc
