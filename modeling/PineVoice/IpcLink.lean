import PineVoice.IpcMessage

/-!
# The link between two cores

Each core sends through four slots of shared memory and a mailbox for one descriptor. The sender
fills a slot, waits for its write event, puts the descriptor into the mailbox and triggers an
interrupt; the receiving task of the peer copies the descriptor, triggers the acknowledgement, and
only then copies the data and queues it for the service. The tasks and the interrupts take their
steps in any order, and a memory copy takes one step for each byte or word.
-/

namespace PineVoice.Ipc

open Function

/-- `BLOCK_SIZE`: the number of slots. -/
def blockSize : ℕ := 4

/-- The packets that fit the queue of a service. -/
def serverQueueSize : ℕ := 10

/-- `phy_data_t` as it stands in the mailbox. -/
structure Desc where
  /-- `flag`. -/
  flag : ℕ
  /-- `service_id`. -/
  serviceId : ℕ
  /-- `command`. -/
  command : ℕ
  /-- `seq`. -/
  seq : ℕ
  /-- `data`: the slot. -/
  slot : ℕ
  /-- `len`. -/
  len : ℕ
  /-- `sem`. -/
  sem : ℕ
deriving DecidableEq

/-- A descriptor word by word. -/
def Desc.words (e : Desc) : List ℕ := [e.flag, e.serviceId, e.command, e.seq, e.slot, e.len, e.sem]

/-- The number of words of a descriptor. -/
def descWords : ℕ := 7

/-- The descriptor that was copied. -/
def Desc.ofWords (ws : List ℕ) : Desc :=
  ⟨ws.getD 0 0, ws.getD 1 0, ws.getD 2 0, ws.getD 3 0, ws.getD 4 0, ws.getD 5 0, ws.getD 6 0⟩

/-- The packet of a descriptor and its data. -/
def Desc.packet (e : Desc) (data : List UInt8) : Packet :=
  ⟨e.flag, e.serviceId, e.command, e.sem, data⟩

/-- What `transfer_send` works on: the message, the packet in the slot and what follows. -/
structure Job where
  /-- The message. -/
  msg : Message
  /-- The bytes of this packet. -/
  chunk : List UInt8
  /-- The payload behind this packet. -/
  rest : List UInt8

/-- Where the task that holds `tx_mutex` stands. -/
inductive Tx where
  /-- Nobody holds `tx_mutex`. -/
  | idle
  /-- `shm_write`, some bytes being written. -/
  | fill (j : Job) (i : ℕ)
  /-- Waiting for `IPC_WRITE_EVENT`. -/
  | wait (j : Job)
  /-- Waiting for `ch_mutex`. -/
  | lock (j : Job)
  /-- `blyoc_ipc_send`, some words being written. -/
  | put (j : Job) (e : Desc) (i : ℕ)
  /-- Before the trigger of the data interrupt. -/
  | trigger (j : Job)
  /-- Before `ch_mutex` is released. -/
  | unlock (j : Job)

/-- Where `ipc_task_process_entry` stands. -/
inductive Rx where
  /-- Waiting for `IPC_READ_EVENT`. -/
  | wait
  /-- Waiting for `ch_mutex`. -/
  | lock
  /-- `blyoc_ipc_recv`, these words being read. -/
  | get (ws : List ℕ)
  /-- Before the trigger of the acknowledgement. -/
  | ack (e : Desc)
  /-- Before `ch_mutex` is released. -/
  | unlock (e : Desc)
  /-- `phy_recv`, these bytes being copied. -/
  | copy (e : Desc) (bytes : List UInt8)
  /-- `aos_queue_send` to the service. -/
  | enqueue (p : Packet)

/-- What `transfer_recv` has collected. -/
structure Collect where
  /-- `phy_msg`. -/
  last : Packet
  /-- The bytes behind `req_data` that are filled. -/
  payload : List UInt8
  /-- `total_len`. -/
  left : ℕ
  /-- `resp_len`. -/
  respLen : ℕ
  /-- `queue`. -/
  queue : ℕ

/-- The first packet of a message. -/
def Collect.first (p : Packet) : Collect where
  last := p
  payload := if 0 < totalLen p.data then p.data.drop dispatchSize else []
  left := if 0 < totalLen p.data then totalLen p.data-(p.data.length-dispatchSize) else 0
  respLen := respLenOf p.data
  queue := queueOf p.data

/-- A further packet. -/
def Collect.add (c : Collect) (p : Packet) : Collect :=
  { c with last := p, payload := c.payload ++ p.data, left := c.left-p.data.length }

/-- The message when everything is there. -/
def Collect.received (c : Collect) : Received :=
  ⟨c.last.flag, c.last.serviceId, c.last.command, c.payload, c.respLen, c.queue⟩

/-- Where `ipc_service_entry` stands. -/
inductive SvcPc where
  /-- `phy_wait` for the first packet. -/
  | idle
  /-- Waiting for `rx_mutex`. -/
  | first (p : Packet)
  /-- Collecting, with `rx_mutex`. -/
  | collect (c : Collect)
  /-- Before the message is handed on. -/
  | process (r : Received)

/-- `service_t`. -/
structure Service where
  /-- `queue`. -/
  queue : List Packet
  /-- The task. -/
  pc : SvcPc

/-- A service whose task waits. -/
def Service.empty : Service := ⟨[], .idle⟩

/-- One direction: the `ipc_t` of the sender, the shared memory and the `ipc_t` of the
receiver as far as they serve it, and the history of both ends. -/
structure Dir where
  /-- `seq`. -/
  seq : ℕ
  /-- `IPC_WRITE_EVENT` of the sender. -/
  writeEvt : Bool
  /-- The task that sends. -/
  tx : Tx
  /-- The slots. -/
  slots : ℕ → ℕ → UInt8
  /-- The mailbox. -/
  mailbox : ℕ → ℕ
  /-- Data interrupts that were triggered and not taken. -/
  dataIrq : ℕ
  /-- Acknowledgements that were triggered and not taken. -/
  ackIrq : ℕ
  /-- `IPC_READ_EVENT` of the receiver. -/
  readEvt : Bool
  /-- The receiving task. -/
  rx : Rx
  /-- `service_list` of the receiver. -/
  registered : List ℕ
  /-- The services. -/
  svc : ℕ → Service
  /-- `rx_mutex`. -/
  rxMutex : Option ℕ
  /-- The messages sent, in the order of `tx_mutex`. -/
  sent : List Message
  /-- The messages each service has received. -/
  delivered : ℕ → List Received
  /-- The number of packets triggered. -/
  posted : ℕ
  /-- The number of packets handed to the services. -/
  taken : ℕ

/-- The uses of `ch_mutex`. -/
inductive Holder where
  | tx
  | rx
deriving DecidableEq

section Steps

variable (shm : Shm) (d : Dir)

/-- `transfer_send` of a message, once `tx_mutex` is held. -/
def Dir.begin (m : Message) : Dir :=
  { d with
    tx := .fill ⟨m, dispatch m ++ m.payload.take (shm.size-dispatchSize),
      m.payload.drop (shm.size-dispatchSize)⟩ 0
    sent := d.sent ++ [m] }

/-- The loop of `transfer_send` behind a packet. -/
def nextTx (j : Job) : Tx :=
  if j.rest = [] then .idle else .fill ⟨j.msg, j.rest.take shm.size, j.rest.drop shm.size⟩ 0

/-- The descriptor of the packet in the current slot. -/
def Dir.desc (j : Job) : Desc :=
  ⟨j.msg.flag shm, j.msg.serviceId, j.msg.command, d.seq, d.seq % blockSize,
    j.chunk.length, j.msg.queue⟩

/-- Write a byte of a slot. -/
def setSlot (slots : ℕ → ℕ → UInt8) (k i : ℕ) (b : UInt8) : ℕ → ℕ → UInt8 :=
  update slots k (update (slots k) i b)

/-- The next step of the task that sends. -/
def Dir.txStep (ch : Option Holder) : Option (Dir × Option Holder) :=
  match d.tx with
  | .idle => none
  | .fill j i =>
    match j.chunk[i]? with
    | some b =>
      some ({ d with slots := setSlot d.slots (d.seq % blockSize) i b, tx := .fill j (i+1) }, ch)
    | none => some ({ d with tx := .wait j }, ch)
  | .wait j => if d.writeEvt then some ({ d with writeEvt := false, tx := .lock j }, ch) else none
  | .lock j =>
    if ch = none then
      some ({ d with seq := (d.seq+1) % 2^32, tx := .put j (d.desc shm j) 0 }, some .tx)
    else none
  | .put j e i =>
    match e.words[i]? with
    | some w => some ({ d with mailbox := update d.mailbox i w, tx := .put j e (i+1) }, ch)
    | none => some ({ d with tx := .trigger j }, ch)
  | .trigger j => some ({ d with dataIrq := d.dataIrq+1, posted := d.posted+1, tx := .unlock j }, ch)
  | .unlock j => some ({ d with tx := nextTx shm j }, none)

/-- `plyoc_interrupt_handler` of the receiver for a data interrupt. -/
def Dir.dataStep : Option Dir :=
  match d.dataIrq with
  | 0 => none
  | n+1 => some { d with dataIrq := n, readEvt := true }

/-- `plyoc_interrupt_handler` of the sender for an acknowledgement. -/
def Dir.ackStep : Option Dir :=
  match d.ackIrq with
  | 0 => none
  | n+1 => some { d with ackIrq := n, writeEvt := true }

/-- Replace a service. -/
def Dir.setSvc (id : ℕ) (s : Service) : Dir := { d with svc := update d.svc id s }

/-- The next step of the receiving task. -/
def Dir.rxStep (ch : Option Holder) : Option (Dir × Option Holder) :=
  match d.rx with
  | .wait => if d.readEvt then some ({ d with readEvt := false, rx := .lock }, ch) else none
  | .lock => if ch = none then some ({ d with rx := .get [] }, some .rx) else none
  | .get ws =>
    if ws.length < descWords then
      some ({ d with rx := .get (ws ++ [d.mailbox ws.length]) }, ch)
    else some ({ d with rx := .ack (Desc.ofWords ws) }, ch)
  | .ack e => some ({ d with ackIrq := d.ackIrq+1, rx := .unlock e }, ch)
  | .unlock e => some ({ d with rx := if isProbe e.flag then .wait else .copy e [] }, none)
  | .copy e bytes =>
    if bytes.length < e.len then
      some ({ d with rx := .copy e (bytes ++ [d.slots e.slot bytes.length]) }, ch)
    else some ({ d with rx := .enqueue (e.packet bytes) }, ch)
  | .enqueue p =>
    if p.serviceId ∈ d.registered then
      let s := d.svc p.serviceId
      if s.queue.length < serverQueueSize then
        some ({ d.setSvc p.serviceId ⟨s.queue ++ [p], s.pc⟩ with
          rx := .wait, taken := d.taken+1 }, ch)
      else none
    else some ({ d with rx := .wait, taken := d.taken+1 }, ch)

/-- The next step of the task of a service. -/
def Dir.svcStep (id : ℕ) : Option Dir :=
  let s := d.svc id
  match s.pc with
  | .idle =>
    match s.queue with
    | [] => none
    | p :: rest => some (d.setSvc id ⟨rest, .first p⟩)
  | .first p =>
    if d.rxMutex = none then
      some { d.setSvc id ⟨s.queue, .collect (Collect.first p)⟩ with rxMutex := some id }
    else none
  | .collect c =>
    if 0 < c.left then
      match s.queue with
      | [] => none
      | p :: rest => some (d.setSvc id ⟨rest, .collect (c.add p)⟩)
    else some { d.setSvc id ⟨s.queue, .process c.received⟩ with rxMutex := none }
  | .process r =>
    some { d.setSvc id ⟨s.queue, .idle⟩ with
      delivered := update d.delivered id (d.delivered id ++ [r]) }

/-- `ipc_add_service` on the receiver. -/
def Dir.addService (id : ℕ) : Option Dir :=
  if id ∈ d.registered then none
  else some { d.setSvc id Service.empty with registered := d.registered ++ [id], readEvt := true }

end Steps

/-- The steps of the task of a service. -/
inductive SvcMove (d : Dir) (id : ℕ) : Dir → Prop
  /-- The first packet is taken. -/
  | pop {p : Packet} {rest : List Packet} (hpc : (d.svc id).pc = .idle)
    (hqueue : (d.svc id).queue = p :: rest) : SvcMove d id (d.setSvc id ⟨rest, .first p⟩)
  /-- `rx_mutex` is obtained. -/
  | lock {p : Packet} (hpc : (d.svc id).pc = .first p) (hfree : d.rxMutex = none) :
    SvcMove d id { d.setSvc id ⟨(d.svc id).queue, .collect (Collect.first p)⟩ with
      rxMutex := some id }
  /-- A further packet is taken. -/
  | add {c : Collect} {p : Packet} {rest : List Packet} (hpc : (d.svc id).pc = .collect c)
    (hleft : 0 < c.left) (hqueue : (d.svc id).queue = p :: rest) :
    SvcMove d id (d.setSvc id ⟨rest, .collect (c.add p)⟩)
  /-- The message is complete and `rx_mutex` is released. -/
  | finish {c : Collect} (hpc : (d.svc id).pc = .collect c) (hleft : ¬0 < c.left) :
    SvcMove d id { d.setSvc id ⟨(d.svc id).queue, .process c.received⟩ with rxMutex := none }
  /-- The message is handed on. -/
  | process {r : Received} (hpc : (d.svc id).pc = .process r) :
    SvcMove d id { d.setSvc id ⟨(d.svc id).queue, .idle⟩ with
      delivered := update d.delivered id (d.delivered id ++ [r]) }

theorem svcStep_move {d d' : Dir} {id : ℕ} (h : d.svcStep id = some d') : SvcMove d id d' := by
  revert h
  fun_cases Dir.svcStep d id <;> rintro ⟨⟩
  case case2 hpc p rest hqueue => exact .pop hpc hqueue
  case case3 p hpc hfree => exact .lock hpc hfree
  case case6 c hpc hleft p rest hqueue => exact .add hpc hleft hqueue
  case case7 c hpc hleft => exact .finish hpc hleft
  case case8 r hpc => exact .process hpc

/-- The two cores. -/
inductive Side where
  | a
  | b
deriving DecidableEq

/-- The peer of a core. -/
def Side.other : Side → Side
  | .a => .b
  | .b => .a

/-- Both directions, each under the core that sends, and `ch_mutex` of each core. -/
structure Sys where
  /-- The direction in which a core sends. -/
  dir : Side → Dir
  /-- `ch_mutex` of a core, for its sender and its receiver. -/
  ch : Side → Option Holder

/-- What can happen next in the direction of a core. -/
inductive Act where
  /-- A task obtains `tx_mutex` for a message. -/
  | send (m : Message)
  /-- The task that sends goes on. -/
  | tx
  /-- A data interrupt is taken. -/
  | dataIrq
  /-- An acknowledgement is taken. -/
  | ackIrq
  /-- The receiving task goes on. -/
  | rx
  /-- The task of a service goes on. -/
  | svc (id : ℕ)
  /-- A service is added on the receiver. -/
  | addService (id : ℕ)

/-- Replace a direction. -/
def Sys.setDir (y : Sys) (s : Side) (d : Dir) : Sys := { y with dir := update y.dir s d }

/-- Replace a direction and a mutex. -/
def Sys.setBoth (y : Sys) (s c : Side) (x : Dir × Option Holder) : Sys :=
  ⟨update y.dir s x.1, update y.ch c x.2⟩

/-- A step in the direction of a core, whose slots may differ from those of its peer; nothing
if it cannot be taken. The services that a core can send to are those it has itself. -/
def Sys.step (shm : Side → Shm) (y : Sys) (s : Side) : Act → Option Sys
  | .send m =>
    match (y.dir s).tx with
    | .idle =>
      if m.serviceId ∈ (y.dir s.other).registered then
        some (y.setDir s ((y.dir s).begin (shm s) m))
      else none
    | _ => none
  | .tx => ((y.dir s).txStep (shm s) (y.ch s)).map (y.setBoth s s)
  | .dataIrq => (y.dir s).dataStep.map (y.setDir s)
  | .ackIrq => (y.dir s).ackStep.map (y.setDir s)
  | .rx => ((y.dir s).rxStep (y.ch s.other)).map (y.setBoth s s.other)
  | .svc id => ((y.dir s).svcStep id).map (y.setDir s)
  | .addService id => ((y.dir s).addService id).map (y.setDir s)

variable {shm : Side → Shm} {Ok : Sys → Side → Act → Prop}

/-- A task obtains `tx_mutex` only when it is free and its core has the service. -/
theorem step_send {y y' : Sys} {s : Side} {m : Message} (h : y.step shm s (.send m) = some y') :
    (y.dir s).tx = .idle ∧ m.serviceId ∈ (y.dir s.other).registered ∧
      y' = y.setDir s ((y.dir s).begin (shm s) m) := by
  cases htx : (y.dir s).tx <;> simp only [Sys.step, htx] at h
  case idle =>
    obtain ⟨hreg, heq⟩ := Option.ite_none_right_eq_some.mp h
    exact ⟨rfl, hreg, (Option.some.inj heq).symm⟩
  all_goals cases h

/-- A run of steps, each of which can be taken. -/
def Sys.run (shm : Side → Shm) (y : Sys) : List (Side × Act) → Option Sys
  | [] => some y
  | x :: xs => (y.step shm x.1 x.2).bind fun y' => y'.run shm xs

/-- A direction before anything was sent: whatever is in the memory, the sender may write
and nothing is under way. -/
structure Dir.Fresh (d : Dir) : Prop where
  /-- `seq` is a word. -/
  seq_lt : d.seq < 2^32
  /-- The write event is set. -/
  writeEvt : d.writeEvt = true
  /-- No task sends. -/
  tx : d.tx = .idle
  /-- No data interrupt. -/
  dataIrq : d.dataIrq = 0
  /-- No acknowledgement. -/
  ackIrq : d.ackIrq = 0
  /-- The read event was consumed. -/
  readEvt : d.readEvt = false
  /-- The receiving task waits. -/
  rx : d.rx = .wait
  /-- The services wait. -/
  svc : ∀ id, d.svc id = Service.empty
  /-- No service holds `rx_mutex`. -/
  rxMutex : d.rxMutex = none
  /-- Nothing was sent. -/
  sent : d.sent = []
  /-- Nothing was delivered. -/
  delivered : ∀ id, d.delivered id = []
  /-- Nothing was triggered. -/
  posted : d.posted = 0
  /-- Nothing was taken. -/
  taken : d.taken = 0

/-- Both directions are fresh, no core holds its mutex, and the cores have the same
services. -/
structure Sys.Fresh (y : Sys) : Prop where
  /-- The directions. -/
  dir : ∀ s, (y.dir s).Fresh
  /-- The mutexes. -/
  ch : ∀ s, y.ch s = none
  /-- The services. -/
  registered : ∀ id, id ∈ (y.dir .a).registered ↔ id ∈ (y.dir .b).registered

/-- Every step of a run meets a condition on the state before it. -/
def Sys.Along (shm : Side → Shm) (Ok : Sys → Side → Act → Prop) (y : Sys) : List (Side × Act) → Prop
  | [] => True
  | x :: xs => Ok y x.1 x.2 ∧ ∀ y', y.step shm x.1 x.2 = some y' → y'.Along shm Ok xs

instance decidableAlong {shm : Side → Shm} {Ok : Sys → Side → Act → Prop}
    [∀ y s act, Decidable (Ok y s act)] :
    ∀ (xs : List (Side × Act)) (y : Sys), Decidable (y.Along shm Ok xs)
  | [], _ => isTrue trivial
  | x :: xs, y =>
    match hstep : y.step shm x.1 x.2 with
    | none => decidable_of_iff (Ok y x.1 x.2)
        ⟨fun hok => ⟨hok, fun z hz => by rw [hstep] at hz; cases hz⟩, And.left⟩
    | some z =>
      have : Decidable (z.Along shm Ok xs) := decidableAlong xs z
      decidable_of_iff (Ok y x.1 x.2 ∧ z.Along shm Ok xs)
        ⟨fun h => ⟨h.1, fun z' hz => by rw [hstep] at hz; cases hz; exact h.2⟩,
          fun h => ⟨h.1, h.2 z hstep⟩⟩

/-- What every step keeps holds along every run. -/
theorem run_keeps {P : Sys → Prop}
    (hstep : ∀ y y' s act, Ok y s act → P y → y.step shm s act = some y' → P y') :
    ∀ {xs : List (Side × Act)} {y y' : Sys}, y.Along shm Ok xs → P y → y.run shm xs = some y' → P y'
  | [], _, _, _, hp, h => Option.some.inj h ▸ hp
  | x :: xs, y, y', hok, hp, h => by
    obtain ⟨z, hz, hrest⟩ := Option.bind_eq_some_iff.mp h
    exact run_keeps hstep (hok.2 z hz) (hstep y z x.1 x.2 hok.1 hp hz) hrest

theorem along_of_forall :
    ∀ {xs : List (Side × Act)} {y : Sys}, (∀ x ∈ xs, ∀ z, Ok z x.1 x.2) → y.Along shm Ok xs
  | [], _, _ => trivial
  | x :: _, y, h => ⟨h x List.mem_cons_self y, fun _ _ =>
      along_of_forall fun x' hx' => h x' (List.mem_cons_of_mem x hx')⟩

end PineVoice.Ipc
