import PineVoice.IpcFlow

/-!
# Services receive what was sent to them

The packets in the queue of a service, followed by those still to be handed to it, are the packets
of the messages it has not received yet, without what its task has already taken of the first of
them. No step changes that.
-/

namespace PineVoice.Ipc

open Function List

section Collecting

variable {shm : Shm} {m : Message} {c : Collect} {rest : List UInt8}

/-- A message is collected up to the rest of its payload. -/
structure Collect.Holds (shm : Shm) (m : Message) (rest : List UInt8) (c : Collect) : Prop where
  /-- The last packet is one of the message. -/
  last : ∃ data, c.last = m.packet shm data
  /-- The payload so far. -/
  payload : c.payload ++ rest = m.payload
  /-- The length that is missing. -/
  left : c.left = rest.length
  /-- The length of the answer. -/
  respLen : c.respLen = m.respLen
  /-- The queue for the answer. -/
  queue : c.queue = m.queue
  /-- A packet was taken. -/
  fewer : (m.restPackets shm rest).length < (m.packets shm).length

/-- The first packet announces the message. -/
theorem Collect.first_holds (shm : Shm) (m : Message) :
    (Collect.first (m.packet shm (dispatch m ++ m.payload.take (shm.size-dispatchSize)))).Holds
      shm m (m.payload.drop (shm.size-dispatchSize)) := by
  obtain ⟨htotal, hresp, hqueue⟩ :=
    dispatch_reads m (m.payload.take (shm.size-dispatchSize))
  have hdrop : (dispatch m ++ m.payload.take (shm.size-dispatchSize)).drop dispatchSize =
      m.payload.take (shm.size-dispatchSize) := by
    rw [← dispatch_length m, drop_left]
  have hlen : (dispatch m ++ m.payload.take (shm.size-dispatchSize)).length-dispatchSize =
      min (shm.size-dispatchSize) m.payload.length := by
    rw [length_append, dispatch_length, length_take, Nat.add_sub_cancel_left]
  refine ⟨⟨_, rfl⟩, ?_, ?_, hresp, hqueue, Nat.lt_succ_self _⟩
  · show (if 0 < totalLen _ then List.drop dispatchSize _ else []) ++ _ = _
    rw [Message.packet, htotal]
    split_ifs with hpos
    · exact take_append_drop _ _
    · have hnil : m.payload = [] := List.length_eq_zero_iff.mp (by omega)
      rw [hnil, drop_nil, append_nil]
  · show (if 0 < totalLen _ then totalLen _-(List.length _-dispatchSize) else 0) = _
    rw [Message.packet, htotal, hlen, length_drop]
    split_ifs with hpos
    · omega
    · omega

/-- A further packet takes the next piece of the payload. -/
theorem Collect.Holds.add (h : c.Holds shm m rest) (hrest : rest ≠ []) :
    (c.add (m.packet shm (rest.take shm.size))).Holds shm m (rest.drop shm.size) := by
  have hfewer := h.fewer
  rw [restPackets_cons hrest, length_cons] at hfewer
  refine ⟨⟨_, rfl⟩, ?_, ?_, h.respLen, h.queue, by omega⟩
  · show (c.payload ++ rest.take shm.size) ++ rest.drop shm.size = m.payload
    rw [append_assoc, take_append_drop, h.payload]
  · show c.left-(rest.take shm.size).length = (rest.drop shm.size).length
    rw [h.left, length_take, length_drop]
    omega

/-- Nothing is missing once the length is reached. -/
theorem Collect.Holds.received (h : c.Holds shm m []) : c.received = m.received shm := by
  obtain ⟨data, hlast⟩ := h.last
  have hpay := h.payload
  rw [append_nil] at hpay
  rw [Collect.received, hlast, hpay, h.respLen, h.queue]
  rfl

end Collecting

/-- What a service finds in its queue, given the messages it has not received. -/
def Awaits (shm : Shm) (todo : List Message) (stream : List Packet) : SvcPc → Prop
  | .idle => stream = todo.flatMap (Message.packets shm)
  | .first p => p :: stream = todo.flatMap (Message.packets shm)
  | .collect c => ∃ m ms rest, todo = m :: ms ∧ c.Holds shm m rest ∧
    stream = m.restPackets shm rest ++ ms.flatMap (Message.packets shm)
  | .process r => ∃ m ms, todo = m :: ms ∧ r = m.received shm ∧
    stream = ms.flatMap (Message.packets shm)

section Awaiting

variable {shm : Shm} {todo : List Message} {stream : List Packet} {p : Packet} {c : Collect}

theorem Awaits.first (h : Awaits shm todo stream (.first p)) :
    Awaits shm todo stream (.collect (Collect.first p)) := by
  cases todo with
  | nil => cases h
  | cons m ms =>
    have heq : p :: stream = m.packets shm ++ ms.flatMap (Message.packets shm) := h
    obtain ⟨rfl, hstream⟩ := List.cons.inj heq
    exact ⟨m, ms, _, rfl, Collect.first_holds shm m, hstream⟩

theorem Awaits.add (h : Awaits shm todo (p :: stream) (.collect c)) (hleft : 0 < c.left) :
    Awaits shm todo stream (.collect (c.add p)) := by
  obtain ⟨m, ms, rest, rfl, hc, hstream⟩ := h
  have hrest : rest ≠ [] := by
    intro hnil
    rw [hc.left, hnil] at hleft
    exact absurd hleft (Nat.lt_irrefl 0)
  rw [restPackets_cons hrest] at hstream
  obtain ⟨rfl, hstream'⟩ := List.cons.inj hstream
  exact ⟨m, ms, _, rfl, hc.add hrest, hstream'⟩

theorem Awaits.finish (h : Awaits shm todo stream (.collect c)) (hleft : ¬0 < c.left) :
    Awaits shm todo stream (.process c.received) := by
  obtain ⟨m, ms, rest, rfl, hc, hstream⟩ := h
  obtain rfl : rest = [] := List.length_eq_zero_iff.mp (by rw [← hc.left]; omega)
  rw [restPackets_nil] at hstream
  exact ⟨m, ms, rfl, hc.received, hstream⟩

/-- Further messages come behind those that are awaited. -/
theorem Awaits.append {pc : SvcPc} (h : Awaits shm todo stream pc) (more : List Message) :
    Awaits shm (todo ++ more) (stream ++ more.flatMap (Message.packets shm)) pc := by
  cases pc with
  | idle =>
    show _ = _
    rw [flatMap_append, ← show stream = _ from h]
  | first p =>
    show p :: (stream ++ _) = _
    rw [flatMap_append, ← show p :: stream = _ from h]
    rfl
  | collect c =>
    obtain ⟨m, ms, rest, rfl, hc, rfl⟩ := h
    refine ⟨m, ms ++ more, rest, rfl, hc, ?_⟩
    rw [flatMap_append, append_assoc]
  | process r =>
    obtain ⟨m, ms, rfl, hr, rfl⟩ := h
    refine ⟨m, ms ++ more, rfl, hr, ?_⟩
    rw [flatMap_append]

end Awaiting

section Served

/-- The messages sent to a service. -/
def Dir.sentTo (d : Dir) (id : ℕ) : List Message := d.sent.filter (·.serviceId = id)

/-- The packets that will be handed to a service. -/
def Dir.laterFor (shm : Shm) (d : Dir) (id : ℕ) : List Packet :=
  ((d.packets shm).drop d.taken).filter (·.serviceId = id)

/-- A service has received the first messages sent to it, and the others are on the way. -/
def Served (shm : Shm) (d : Dir) (id : ℕ) : Prop :=
  ∃ done todo, d.sentTo id = done ++ todo ∧ d.delivered id = done.map (Message.received shm) ∧
    Awaits shm todo ((d.svc id).queue ++ d.laterFor shm id) (d.svc id).pc

/-- What the services depend on. -/
def Dir.view (d : Dir) : List Message × (ℕ → Service) × (ℕ → List Received) × ℕ × List ℕ × Option ℕ :=
  (d.sent, d.svc, d.delivered, d.taken, d.registered, d.rxMutex)

variable {shm : Shm} {s0 : ℕ} {d d' : Dir}

theorem Served.congr {id : ℕ} (h : Served shm d id) (hview : d'.view = d.view) :
    Served shm d' id := by
  simp only [Dir.view, Prod.mk.injEq] at hview
  obtain ⟨hsent, hsvc, hdelivered, htaken, -, -⟩ := hview
  simpa only [Served, Dir.sentTo, Dir.laterFor, Dir.packets, hsent, hsvc, hdelivered, htaken]
    using h

theorem txStep_view {ch ch' : Option Holder} (hstep : d.txStep shm ch = some (d', ch')) :
    d'.view = d.view := by
  revert hstep
  fun_cases Dir.txStep shm d ch <;> rintro ⟨⟩ <;> rfl

theorem dataStep_view (hstep : d.dataStep = some d') : d'.view = d.view := by
  unfold Dir.dataStep at hstep
  split at hstep <;> cases hstep
  rfl

theorem ackStep_view (hstep : d.ackStep = some d') : d'.view = d.view := by
  unfold Dir.ackStep at hstep
  split at hstep <;> cases hstep
  rfl

/-- The queue of a service with a packet added. -/
def Dir.pushed (d : Dir) (p : Packet) : ℕ → Service :=
  update d.svc p.serviceId
    ⟨(d.svc p.serviceId).queue ++ [p], (d.svc p.serviceId).pc⟩

/-- The receiving task changes the services only when it hands a packet on. -/
theorem rxStep_view {ch ch' : Option Holder} (hstep : d.rxStep ch = some (d', ch')) :
    d'.view = d.view ∨ ∃ p, d.rx = .enqueue p ∧ d'.sent = d.sent ∧
      d'.delivered = d.delivered ∧ d'.taken = d.taken+1 ∧ d'.registered = d.registered ∧
      d'.rxMutex = d.rxMutex ∧ (p.serviceId ∈ d.registered → d'.svc = d.pushed p) := by
  revert hstep
  fun_cases Dir.rxStep d ch <;> rintro ⟨⟩
  case case11 p hrx hreg s hroom =>
    exact Or.inr ⟨p, hrx, rfl, rfl, rfl, rfl, rfl, fun _ => rfl⟩
  case case13 p hrx hreg =>
    exact Or.inr ⟨p, hrx, rfl, rfl, rfl, rfl, rfl, fun h => absurd h hreg⟩
  all_goals exact Or.inl rfl

/-- Handing a packet on does not change what a service finds. -/
theorem stream_handOn (id : ℕ) {p : Packet} (hp : (d.packets shm)[d.taken]? = some p)
    (hsent : d'.sent = d.sent) (htaken : d'.taken = d.taken+1) (hsvc : d'.svc = d.pushed p) :
    (d'.svc id).queue ++ d'.laterFor shm id = (d.svc id).queue ++ d.laterFor shm id ∧
      (d'.svc id).pc = (d.svc id).pc := by
  obtain ⟨hlt, hget⟩ := List.getElem?_eq_some_iff.mp hp
  have hlater : d.laterFor shm id =
      (p :: (d.packets shm).drop (d.taken+1)).filter (·.serviceId = id) := by
    rw [Dir.laterFor, drop_eq_getElem_cons hlt, hget]
  have hlater' : d'.laterFor shm id =
      ((d.packets shm).drop (d.taken+1)).filter (·.serviceId = id) := by
    rw [Dir.laterFor, Dir.packets, hsent, htaken]
    rfl
  rw [hlater, hlater', hsvc, Dir.pushed]
  by_cases hid : id = p.serviceId
  · subst hid
    rw [update_self, filter_cons_of_pos (by simp)]
    exact ⟨by rw [append_assoc]; rfl, rfl⟩
  · rw [update_of_ne hid, filter_cons_of_neg (by simpa using fun h => hid h.symm)]
    exact ⟨rfl, rfl⟩

/-- A step of a service: its own part moves on, the others stay. -/
theorem Served.svcStep {id : ℕ} (h : ∀ i, Served shm d i) (hstep : d.svcStep id = some d') :
    ∀ i, Served shm d' i := by
  have hother : ∀ (s : Service) (mutex : Option ℕ) (out : ℕ → List Received) (i : ℕ), i ≠ id →
      out i = d.delivered i →
      Served shm { d with
        svc := update d.svc id s, rxMutex := mutex, delivered := out } i := by
    intro s mutex out i hi hout
    obtain ⟨done, todo, hsent, hdel, hawaits⟩ := h i
    refine ⟨done, todo, hsent, hout.trans hdel, ?_⟩
    show Awaits shm todo ((update d.svc id s i).queue ++ d.laterFor shm i)
      (update d.svc id s i).pc
    rw [update_of_ne hi]
    exact hawaits
  have hself : ∀ (s : Service) (mutex : Option ℕ) (done todo : List Message),
      d.sentTo id = done ++ todo → d.delivered id = done.map (Message.received shm) →
      Awaits shm todo (s.queue ++ d.laterFor shm id) s.pc →
      Served shm { d with svc := update d.svc id s, rxMutex := mutex } id := by
    intro s mutex done todo hsent hdel hawaits
    refine ⟨done, todo, hsent, hdel, ?_⟩
    show Awaits shm todo ((update d.svc id s id).queue ++ d.laterFor shm id)
      (update d.svc id s id).pc
    rw [update_self]
    exact hawaits
  obtain ⟨done, todo, hsent, hdel, hawaits⟩ := h id
  intro i
  cases svcStep_move hstep with
  | pop hpc hqueue =>
    rw [hpc, hqueue] at hawaits
    rcases eq_or_ne i id with rfl | hi
    · exact hself _ d.rxMutex done todo hsent hdel hawaits
    · exact hother _ d.rxMutex d.delivered i hi rfl
  | lock hpc =>
    rw [hpc] at hawaits
    rcases eq_or_ne i id with rfl | hi
    · exact hself _ _ done todo hsent hdel hawaits.first
    · exact hother _ _ d.delivered i hi rfl
  | add hpc hleft hqueue =>
    rw [hpc, hqueue] at hawaits
    rcases eq_or_ne i id with rfl | hi
    · exact hself _ d.rxMutex done todo hsent hdel (Awaits.add hawaits hleft)
    · exact hother _ d.rxMutex d.delivered i hi rfl
  | finish hpc hleft =>
    rw [hpc] at hawaits
    rcases eq_or_ne i id with rfl | hi
    · exact hself _ _ done todo hsent hdel (hawaits.finish hleft)
    · exact hother _ _ d.delivered i hi rfl
  | process hpc =>
    rw [hpc] at hawaits
    rcases eq_or_ne i id with rfl | hi
    · obtain ⟨m, ms, rfl, rfl, hstream⟩ := hawaits
      refine ⟨done ++ [m], ms, hsent.trans (append_cons done m ms), ?_, ?_⟩
      · show update d.delivered i _ i = _
        rw [update_self, hdel, map_append]
        rfl
      · show Awaits shm ms ((update d.svc i _ i).queue ++ d.laterFor shm i)
          (update d.svc i _ i).pc
        rw [update_self]
        exact hstream
    · exact hother _ d.rxMutex _ i hi (update_of_ne hi _ _)

end Served

end PineVoice.Ipc
