import Mathlib.Data.Int.Notation
import PineVoice.Handover
import PineVoice.Transition

/-!
# Calls of a service and their buffers

The caller and the service of a call both give up its buffer with `rpc_deinit`: the first puts it
into `rpc_buffer_gc_cache`, the second finds it there and frees it. A call that could not be
queued leaves its buffer in the cache. What is put into a buffer is left out, and memory is always
found.
-/

namespace PineVoice.Uservice

open Function Transition Handover List Option

/-- `MSP_WAIT_FOREVER`, as an `int`. -/
def mspWaitForever : ℤ := -1

/-- A pointer to an `rpc_buffer_t`. The program sees the address alone; the number says which
allocation it points to. -/
structure BufferPtr where
  /-- The address. -/
  addr : ℕ
  /-- The number of the allocation. -/
  serial : ℕ
deriving DecidableEq

/-- `rpc_buffer_t`. -/
structure RpcBuffer where
  /-- The number of the allocation. -/
  serial : ℕ
  /-- `timeout_ms`. -/
  timeoutMs : ℤ
  /-- The value of `sem`. -/
  sem : ℕ

/-- `rpc_t`, for the one service. -/
structure Rpc where
  /-- `cmd_id`. -/
  cmdId : ℕ
  /-- `data`. -/
  data : Option BufferPtr
deriving DecidableEq

/-- Where a task is in a call. -/
inductive Calling where
  | idle
  /-- The loop of `uservice_call`, with the tries that are left. -/
  | sending (rpc : Rpc) (count : ℕ)
  /-- `rpc_wait`. -/
  | waiting (rpc : Rpc)
  /-- `uservice_call` has returned. -/
  | leaving (rpc : Rpc) (ret : ℤ)
deriving DecidableEq

/-- Where the task of the service is in `utask_entry`. -/
inductive Serving where
  | receiving
  /-- The handler runs. -/
  | processing (rpc : Rpc)
  /-- `rpc_reply` before its `rpc_deinit`. -/
  | replying (rpc : Rpc)
deriving DecidableEq

/-- The service runs a handler. -/
def Serving.isProcessing : Serving → Bool
  | .processing _ => true
  | _ => false

/-- `utask_t`, its callers and the memory of the buffers. -/
structure Utask (Task : Type*) where
  /-- The calls of the tasks. -/
  calls : Task → Calling
  /-- The service. -/
  service : Serving
  /-- `queue`. -/
  queue : List Rpc
  /-- `rpc_buffer_gc_cache`. -/
  gcCache : List BufferPtr
  /-- The buffers at their addresses. -/
  heap : ℕ → Option RpcBuffer
  /-- All buffers so far. -/
  made : List BufferPtr
  /-- The buffers that were freed. -/
  freed : List BufferPtr
  /-- The buffers of the calls that have failed. -/
  failed : List BufferPtr
  /-- Memory was used that does not exist. -/
  fault : Bool

variable {Task : Type*}

/-- Before the first call. -/
def Utask.init : Utask Task :=
  ⟨fun _ => .idle, .receiving, [], [], fun _ => none, [], [], [], false⟩

section Buffers

variable (u : Utask Task)

/-- `msp_zalloc(sizeof(rpc_buffer_t))`. -/
def Utask.alloc (addr : ℕ) (timeoutMs : ℤ) : Utask Task :=
  { u with
    heap := update u.heap addr (some ⟨u.made.length, timeoutMs, 0⟩)
    made := u.made ++ [⟨addr, u.made.length⟩] }

/-- The change of the semaphore of a buffer. -/
def Utask.setSem (addr : ℕ) (b : RpcBuffer) (sem : ℕ) : Utask Task :=
  { u with heap := update u.heap addr (some { b with sem := sem }) }

/-- `rpc_buffer_free`. -/
def rpcBufferFree (data : BufferPtr) : Utask Task :=
  match u.heap data.addr with
  | some b =>
    { u with
      heap := update u.heap data.addr none
      freed := u.freed ++ [⟨data.addr, b.serial⟩] }
  | none => { u with fault := true }

/-- `rpc_deinit`, under the lock of the task. -/
def rpcDeinit (rpc : Rpc) : Utask Task :=
  match rpc.data with
  | none => u
  | some p =>
    match u.gcCache.find? fun data => data.addr = p.addr with
    | some data => rpcBufferFree { u with gcCache := u.gcCache.erase data } data
    | none =>
      if (u.heap p.addr).isSome then { u with gcCache := u.gcCache ++ [p] }
      else { u with fault := true }

/-- The start of `rpc_reply`. -/
def rpcReply (rpc : Rpc) : Utask Task :=
  match rpc.data with
  | none => { u with service := .receiving }
  | some p =>
    match u.heap p.addr with
    | none => { u with fault := true }
    | some b =>
      if b.timeoutMs ≠ 0 then { u.setSem p.addr b (b.sem+1) with service := .replying rpc }
      else { u with service := .replying rpc }

/-- A task may start a call: the task of the service from a handler only. -/
def Utask.MayCall (self t : Task) : Prop :=
  u.calls t = .idle ∧ (t = self → u.service.isProcessing = true)

end Buffers

section Code

variable [DecidableEq Task] (u : Utask Task)

instance (self t : Task) : Decidable (u.MayCall self t) :=
  inferInstanceAs (Decidable (_ ∧ (_ → _)))

/-- A task goes on. -/
def Utask.setCall (t : Task) (c : Calling) : Utask Task :=
  { u with calls := update u.calls t c }

/-- `rpc_wait` of a call that was queued; `none` as long as it waits. -/
def rpcWait (t : Task) (rpc : Rpc) : Option (Utask Task) :=
  match rpc.data with
  | none => some (u.setCall t (.leaving rpc 0))
  | some p =>
    match u.heap p.addr with
    | none => some { u with fault := true }
    | some b =>
      if b.timeoutMs ≠ 0 then
        if b.sem > 0 then some ((u.setSem p.addr b (b.sem-1)).setCall t (.leaving rpc 0)) else none
      else some (u.setCall t (.leaving rpc 0))

/-- What can happen next. -/
inductive Act (Task : Type*) where
  /-- `uservice_call_sync`, with the address of its buffer. -/
  | callSync (t : Task) (cmd addr : ℕ)
  /-- `uservice_call_async`, with the address of the buffer for its parameter, if it has one. -/
  | callAsync (t : Task) (cmd : ℕ) (addr : Option ℕ)
  /-- `msp_queue_send`. -/
  | send (t : Task)
  /-- `rpc_wait`. -/
  | wait (t : Task)
  /-- `rpc_deinit` of the caller, and its return. -/
  | deinit (t : Task)
  /-- `msp_queue_recv`. -/
  | recv
  /-- The handler has succeeded: `rpc_reply`. -/
  | reply
  /-- `rpc_deinit` of the service. -/
  | finish

/-- One step, for a queue of some length. -/
def step (self : Task) (queueCount : ℕ) : Act Task → Option (Utask Task)
  | .callSync t cmd addr =>
    if u.MayCall self t ∧ (u.heap addr).isNone then
      let rpc : Rpc := ⟨cmd, some ⟨addr, u.made.length⟩⟩
      some ((u.alloc addr mspWaitForever).setCall t
        (if t = self then .leaving rpc (-1) else .sending rpc 10))
    else none
  | .callAsync t cmd none =>
    if u.MayCall self t then some (u.setCall t (.sending ⟨cmd, none⟩ 10)) else none
  | .callAsync t cmd (some addr) =>
    if u.MayCall self t ∧ (u.heap addr).isNone then
      some ((u.alloc addr 0).setCall t (.sending ⟨cmd, some ⟨addr, u.made.length⟩⟩ 10))
    else none
  | .send t =>
    match u.calls t with
    | .sending rpc (count+1) =>
      if u.queue.length < queueCount then
        some { u.setCall t (.waiting rpc) with queue := u.queue ++ [rpc] }
      else some (u.setCall t (if count = 0 then .leaving rpc (-1) else .sending rpc count))
    | _ => none
  | .wait t =>
    match u.calls t with
    | .waiting rpc => rpcWait u t rpc
    | _ => none
  | .deinit t =>
    match u.calls t with
    | .leaving rpc ret =>
      some { (rpcDeinit u rpc).setCall t .idle with
        failed := if ret < 0 then u.failed ++ rpc.data.toList else u.failed }
    | _ => none
  | .recv =>
    match u.service, u.queue with
    | .receiving, rpc :: rest => some { u with service := .processing rpc, queue := rest }
    | _, _ => none
  | .reply =>
    match u.service with
    | .processing rpc => if u.calls self = .idle then some (rpcReply u rpc) else none
    | _ => none
  | .finish =>
    match u.service with
    | .replying rpc => some { rpcDeinit u rpc with service := .receiving }
    | _ => none

end Code

/-! ## Who holds a buffer -/

/-- The buffer that a caller holds, and if it was queued. -/
def Calling.held : Calling → Option (BufferPtr × Bool)
  | .idle => none
  | .sending rpc _ => rpc.data.map (·, false)
  | .waiting rpc => rpc.data.map (·, true)
  | .leaving rpc ret => rpc.data.map (·, decide (0 ≤ ret))

/-- The buffer of the call that the service handles. -/
def Serving.data : Serving → Option BufferPtr
  | .receiving => none
  | .processing rpc => rpc.data
  | .replying rpc => rpc.data

/-- The buffer is in memory. -/
def Utask.Live (u : Utask Task) (p : BufferPtr) : Prop :=
  ∃ b, u.heap p.addr = some b ∧ b.serial = p.serial

/-- The ledger of the buffers. -/
def Utask.ledger (u : Utask Task) : Ledger Task BufferPtr where
  holder t := (u.calls t).held
  served := u.service.data.toList ++ u.queue.filterMap Rpc.data
  parked := u.gcCache
  live := { p | u.Live p }
  made := u.made
  freed := u.freed
  lost := u.failed

/-- What holds in every run. -/
structure Utask.Inv (u : Utask Task) : Prop where
  /-- The buffers are in order. -/
  ok : u.ledger.Ok
  /-- The allocations are numbered. -/
  serial_lt : ∀ p ∈ u.made, p.serial < u.made.length
  /-- No memory is used after it was freed. -/
  sane : u.fault = false

section Ledger

variable {u : Utask Task} {p q : BufferPtr} {b : RpcBuffer}

@[simp]
theorem rpcDeinit_queue (rpc : Rpc) : (rpcDeinit u rpc).queue = u.queue := by
  rw [rpcDeinit]
  split
  · rfl
  · split
    · rw [rpcBufferFree]
      split <;> rfl
    · split_ifs <;> rfl

@[simp]
theorem rpcDeinit_made (rpc : Rpc) : (rpcDeinit u rpc).made = u.made := by
  rw [rpcDeinit]
  split
  · rfl
  · split
    · rw [rpcBufferFree]
      split <;> rfl
    · split_ifs <;> rfl

/-- An address holds one buffer. -/
theorem Utask.Live.eq_of_addr (hp : u.Live p) (hq : u.Live q) (haddr : p.addr = q.addr) :
    p = q := by
  rcases hp with ⟨b, hb, hserial⟩
  rcases hq with ⟨c, hc, hserial'⟩
  rw [haddr, hc] at hb
  cases hb
  rcases p with ⟨addr, serial⟩
  dsimp only at haddr hserial hserial'
  rw [haddr, ← hserial, hserial']

variable {addr : ℕ} {rpc : Rpc}

theorem ledger_setSem (hb : u.heap addr = some b) (sem : ℕ) :
    (u.setSem addr b sem).ledger = u.ledger := by
  have hlive (p : BufferPtr) : (u.setSem addr b sem).Live p ↔ u.Live p := by
    rw [Utask.Live, Utask.Live, Utask.setSem]
    dsimp only
    by_cases haddr : p.addr = addr
    · rw [haddr, hb]
      simp
    · rw [update_of_ne haddr]
  have hset : { p | (u.setSem addr b sem).Live p } = { p | u.Live p } := Set.ext hlive
  rw [Utask.ledger, hset]
  rfl

theorem ledger_alloc (hfree : u.heap addr = none) (timeoutMs : ℤ) :
    (u.alloc addr timeoutMs).ledger = { u.ledger with
        live := insert ⟨addr, u.made.length⟩ u.ledger.live
        made := u.ledger.made ++ [⟨addr, u.made.length⟩] } := by
  have hlive (p : BufferPtr) : (u.alloc addr timeoutMs).Live p ↔
      p = ⟨addr, u.made.length⟩ ∨ u.Live p := by
    rcases p with ⟨a, serial⟩
    rw [Utask.Live, Utask.Live, Utask.alloc]
    dsimp only
    by_cases haddr : a = addr
    · rw [haddr, hfree]
      simp [eq_comm]
    · simp [haddr]
  have hset : { p | (u.alloc addr timeoutMs).Live p } =
      insert ⟨addr, u.made.length⟩ { p | u.Live p } := Set.ext hlive
  rw [Utask.ledger, hset]
  rfl

/-- Freeing a buffer that exists. -/
theorem ledger_rpcBufferFree (hp : u.Live p) :
    (rpcBufferFree u p).ledger =
        { u.ledger with live := u.ledger.live \ {p}, freed := u.ledger.freed ++ [p] } ∧
      (rpcBufferFree u p).fault = u.fault := by
  rcases hp with ⟨b, hb, hserial⟩
  have hfree : rpcBufferFree u p =
      { u with heap := update u.heap p.addr none, freed := u.freed ++ [p] } := by
    rw [rpcBufferFree, hb]
    dsimp only
    rw [hserial]
  have hlive (q : BufferPtr) : (rpcBufferFree u p).Live q ↔ u.Live q ∧ q ≠ p := by
    rw [hfree, Utask.Live]
    dsimp only
    constructor
    · rintro ⟨c, hc, hcs⟩
      have hne : q.addr ≠ p.addr := fun h => by
        rw [h] at hc
        simp at hc
      rw [update_of_ne hne] at hc
      exact ⟨⟨c, hc, hcs⟩, fun h => hne (by rw [h])⟩
    · rintro ⟨hq, hne⟩
      have haddr : q.addr ≠ p.addr := fun h => hne (hq.eq_of_addr ⟨b, hb, hserial⟩ h)
      rcases hq with ⟨c, hc, hcs⟩
      exact ⟨c, by rw [update_of_ne haddr, hc], hcs⟩
  have hset : { q | (rpcBufferFree u p).Live q } = { q | u.Live q } \ {p} := Set.ext hlive
  constructor
  · rw [Utask.ledger, hset, hfree]
    rfl
  · rw [hfree]

/-- `rpc_deinit` finds a buffer in the cache by its address. -/
theorem ledger_rpcDeinit (hok : u.ledger.Ok) (cmd : ℕ) (hp : u.Live p) :
    (rpcDeinit u ⟨cmd, some p⟩).ledger = u.ledger.finish p ∧
      (rpcDeinit u ⟨cmd, some p⟩).fault = u.fault := by
  have hcache (q : BufferPtr) (hq : q ∈ u.gcCache) (haddr : q.addr = p.addr) : q = p :=
    Utask.Live.eq_of_addr (hok.parked_live q hq) hp haddr
  rw [rpcDeinit, Ledger.finish]
  dsimp only
  cases hfind : u.gcCache.find? fun data => data.addr = p.addr with
  | some q =>
    have hq : q = p := hcache q (mem_of_find?_eq_some hfind)
      (by simpa using find?_some hfind)
    subst hq
    have hmem : q ∈ u.ledger.parked := mem_of_find?_eq_some hfind
    rw [if_pos hmem]
    exact ledger_rpcBufferFree (u := { u with gcCache := u.gcCache.erase q }) hp
  | none =>
    have hmem : p ∉ u.ledger.parked := fun hmem => by
      have hnone := List.find?_eq_none.mp hfind p hmem
      simp at hnone
    rcases hp with ⟨b, hb, _⟩
    rw [if_neg hmem]
    rw [hb]
    exact ⟨rfl, rfl⟩

variable {u' : Utask Task} {t : Task}

/-- A step that the ledger does not see. -/
theorem Utask.Inv.stutter (h : u.Inv) (hledger : u'.ledger = u.ledger)
    (hfault : u'.fault = u.fault) : u'.Inv where
  ok := hledger ▸ h.ok
  serial_lt := by
    have hmade : u'.made = u.made := congrArg Ledger.made hledger
    rw [hmade]
    exact h.serial_lt
  sane := hfault.trans h.sane

/-- A caller holds its buffer. -/
theorem Utask.Inv.held_live (h : u.Inv) {p : BufferPtr} {sent : Bool}
    (hheld : (u.calls t).held = some (p, sent)) : u.Live p :=
  h.ok.held_live p ⟨t, sent, hheld⟩

/-- The service has the buffer that it handles. -/
theorem Utask.Inv.service_live (h : u.Inv) {p : BufferPtr} (hdata : u.service.data = some p) :
    u.Live p := by
  refine h.ok.served_live p (mem_append_left _ ?_)
  rw [hdata]
  exact mem_singleton_self p

/-- `msp_queue_recv`. -/
theorem Utask.Inv.recv (h : u.Inv) {rest : List Rpc} (hservice : u.service = .receiving)
    (hqueue : u.queue = rpc :: rest) :
    Utask.Inv { u with service := .processing rpc, queue := rest } := by
  have hserved : rpc.data.toList ++ rest.filterMap Rpc.data =
      u.service.data.toList ++ u.queue.filterMap Rpc.data := by
    rw [hservice, hqueue, filterMap_cons]
    cases rpc.data <;> rfl
  have hledger : Utask.ledger { u with service := .processing rpc, queue := rest } =
      { u.ledger with served := rpc.data.toList ++ rest.filterMap Rpc.data } := rfl
  refine h.stutter ?_ rfl
  rw [hledger, hserved]
  rfl

/-- The start of `rpc_reply`. -/
theorem Utask.Inv.reply (h : u.Inv) (hservice : u.service = .processing rpc) :
    (rpcReply u rpc).Inv := by
  have hledger (service : Serving) (hsame : service.data = u.service.data) :
      Utask.ledger { u with service := service } = u.ledger := by
    have hset : Utask.ledger { u with service := service } =
        { u.ledger with served := service.data.toList ++ u.queue.filterMap Rpc.data } := rfl
    rw [hset, hsame]
    rfl
  rcases rpc with ⟨cmd, data⟩
  rw [rpcReply]
  cases data with
  | none => exact h.stutter (hledger .receiving (by rw [hservice]; rfl)) rfl
  | some p =>
    rcases h.service_live (congrArg Serving.data hservice) with ⟨b, hb, _⟩
    dsimp only
    rw [hb]
    dsimp only
    have hreplying : (Serving.replying ⟨cmd, some p⟩).data = u.service.data := by
      rw [hservice]
      rfl
    split_ifs with htimeout
    · refine h.stutter ?_ rfl
      have hset : Utask.ledger
          { u.setSem p.addr b (b.sem+1) with service := .replying ⟨cmd, some p⟩ } =
          { (u.setSem p.addr b (b.sem+1)).ledger with
            served := (Serving.replying ⟨cmd, some p⟩).data.toList ++
              u.queue.filterMap Rpc.data } := rfl
      rw [hset, ledger_setSem hb, hreplying]
      rfl
    · exact h.stutter (hledger (.replying ⟨cmd, some p⟩) hreplying) rfl

end Ledger

section Steps

variable [DecidableEq Task] {u : Utask Task}

theorem ledger_setCall (t : Task) (c : Calling) :
    (u.setCall t c).ledger = { u.ledger with holder := update u.ledger.holder t c.held } := by
  have hholder : (fun t' => (update u.calls t c t').held) =
      update (fun t' => (u.calls t').held) t c.held :=
    funext fun t' => apply_update (fun _ c => Calling.held c) u.calls t c t'
  rw [Utask.ledger, Utask.setCall]
  rw [hholder]
  rfl

variable {c : Calling} {rpc : Rpc}

/-- A step of a call that keeps its buffer. -/
theorem ledger_setCall_same {t : Task} (hheld : (u.calls t).held = c.held) :
    (u.setCall t c).ledger = u.ledger := by
  rw [ledger_setCall]
  have hholder : update u.ledger.holder t c.held = u.ledger.holder := by
    rw [← hheld]
    exact update_eq_self t u.ledger.holder
  rw [hholder]

variable {u' : Utask Task} {self t : Task} {queueCount : ℕ}

/-- A step of the ledger that makes no buffer. -/
theorem Utask.Inv.moves (h : u.Inv) (hstep : Step u.ledger u'.ledger) (hmade : u'.made = u.made)
    (hfault : u'.fault = u.fault) : u'.Inv where
  ok := h.ok.step hstep
  serial_lt := by
    rw [hmade]
    exact h.serial_lt
  sane := hfault.trans h.sane

/-- The start of a call with a buffer. -/
theorem Utask.Inv.makes (h : u.Inv) {addr : ℕ} (hidle : u.calls t = .idle)
    (hfree : u.heap addr = none) (timeoutMs : ℤ)
    (hheld : c.held = some (⟨addr, u.made.length⟩, false)) :
    ((u.alloc addr timeoutMs).setCall t c).Inv where
  ok := by
    have hholder : u.ledger.holder t = none := by
      rw [Utask.ledger]
      dsimp only
      rw [hidle]
      rfl
    have hfresh : (⟨addr, u.made.length⟩ : BufferPtr) ∉ u.ledger.made := fun hmem =>
      Nat.lt_irrefl _ (h.serial_lt _ hmem)
    rw [ledger_setCall, ledger_alloc hfree, hheld]
    exact h.ok.make hholder hfresh
  serial_lt := by
    intro p hp
    have hlength : ((u.alloc addr timeoutMs).setCall t c).made.length = u.made.length+1 :=
      length_append
    rw [hlength]
    rcases List.mem_append.mp hp with hold | hnew
    · exact Nat.lt_succ_of_lt (h.serial_lt p hold)
    · rw [List.mem_singleton.mp hnew]
      exact Nat.lt_succ_self _
  sane := h.sane

/-- The message is queued. -/
theorem Utask.Inv.send (h : u.Inv) {count : ℕ} (hcall : u.calls t = .sending rpc count) :
    Utask.Inv { u.setCall t (.waiting rpc) with queue := u.queue ++ [rpc] } := by
  have hserved : u.service.data.toList ++ (u.queue ++ [rpc]).filterMap Rpc.data =
      u.ledger.served ++ rpc.data.toList := by
    have hlast : [rpc].filterMap Rpc.data = rpc.data.toList := by
      cases hdata : rpc.data <;> simp [hdata]
    rw [filterMap_append, ← append_assoc]
    rfl
  have hledger : Utask.ledger { u.setCall t (.waiting rpc) with queue := u.queue ++ [rpc] } =
      { (u.setCall t (.waiting rpc)).ledger with
        served := u.service.data.toList ++ (u.queue ++ [rpc]).filterMap Rpc.data } := rfl
  rcases rpc with ⟨cmd, data⟩
  cases data with
  | none =>
    refine h.stutter ?_ rfl
    rw [hledger, hserved, ledger_setCall_same (by rw [hcall]; rfl), toList_none, append_nil]
  | some p =>
    refine h.moves ?_ rfl rfl
    have hheld : u.ledger.holder t = some (p, false) := congrArg Calling.held hcall
    rw [hledger, hserved, ledger_setCall]
    exact .hand hheld

/-- `rpc_wait` returns. -/
theorem Utask.Inv.wait (h : u.Inv) (hcall : u.calls t = .waiting rpc)
    (hwait : rpcWait u t rpc = some u') : u'.Inv := by
  rcases rpc with ⟨cmd, data⟩
  have hsame : (u.calls t).held = (Calling.leaving ⟨cmd, data⟩ 0).held := by
    rw [hcall]
    rfl
  rw [rpcWait] at hwait
  cases data with
  | none =>
    cases hwait
    exact h.stutter (ledger_setCall_same hsame) rfl
  | some p =>
    rcases h.held_live (congrArg Calling.held hcall) with ⟨b, hb, _⟩
    dsimp only at hwait
    rw [hb] at hwait
    dsimp only at hwait
    split_ifs at hwait with htimeout hsem
    · cases hwait
      refine h.stutter ?_ rfl
      rw [ledger_setCall_same, ledger_setSem hb]
      exact hsame
    · cases hwait
      exact h.stutter (ledger_setCall_same hsame) rfl

/-- A caller gives its buffer up and returns. -/
theorem Utask.Inv.deinit (h : u.Inv) {ret : ℤ} (hcall : u.calls t = .leaving rpc ret) :
    Utask.Inv { (rpcDeinit u rpc).setCall t .idle with
      failed := if ret < 0 then u.failed ++ rpc.data.toList else u.failed } := by
  rcases rpc with ⟨cmd, data⟩
  cases data with
  | none =>
    have hfailed : (if ret < 0 then u.failed ++ (none : Option BufferPtr).toList else u.failed) =
        u.failed := by
      rw [toList_none, append_nil, ite_self]
    rw [hfailed]
    have hidle : (u.calls t).held = Calling.idle.held := by
      rw [hcall]
      rfl
    exact h.stutter (ledger_setCall_same hidle) rfl
  | some p =>
    have hheld : u.ledger.holder t = some (p, decide (0 ≤ ret)) := congrArg Calling.held hcall
    rcases ledger_rpcDeinit h.ok cmd (h.held_live hheld) with ⟨hledger, hfault⟩
    have hnext (lost : List BufferPtr) :
        Utask.ledger { (rpcDeinit u ⟨cmd, some p⟩).setCall t .idle with failed := lost } =
          Ledger.finish { u.ledger with
            holder := update u.ledger.holder t none
            lost := lost } p := by
      have hset : Utask.ledger
          { (rpcDeinit u ⟨cmd, some p⟩).setCall t .idle with failed := lost } =
          { ((rpcDeinit u ⟨cmd, some p⟩).setCall t .idle).ledger with lost := lost } := rfl
      rw [hset, ledger_setCall, hledger, Ledger.finish, Ledger.finish]
      split_ifs <;> rfl
    have hmade : (rpcDeinit u ⟨cmd, some p⟩).made = u.made := rpcDeinit_made _
    by_cases hret : ret < 0
    · have hunsent : decide (0 ≤ ret) = false := decide_eq_false (Int.not_le.mpr hret)
      rw [hunsent] at hheld
      refine h.moves ?_ hmade hfault
      rw [if_pos hret, hnext]
      exact .abandon hheld
    · have hsent : decide (0 ≤ ret) = true := decide_eq_true (Int.not_lt.mp hret)
      rw [hsent] at hheld
      refine h.moves ?_ hmade hfault
      rw [if_neg hret, hnext]
      exact .leave hheld

/-- The service gives the buffer up. -/
theorem Utask.Inv.finish (h : u.Inv) (hservice : u.service = .replying rpc) :
    Utask.Inv { rpcDeinit u rpc with service := .receiving } := by
  rcases rpc with ⟨cmd, data⟩
  cases data with
  | none =>
    refine h.stutter ?_ rfl
    have hset : Utask.ledger { u with service := .receiving } =
        { u.ledger with served := u.queue.filterMap Rpc.data } := rfl
    have hserved : u.ledger.served = u.queue.filterMap Rpc.data := by
      rw [Utask.ledger, hservice]
      rfl
    rw [rpcDeinit]
    rw [hset, ← hserved]
  | some p =>
    have hserved : u.ledger.served = p :: u.queue.filterMap Rpc.data := by
      rw [Utask.ledger, hservice]
      rfl
    rcases ledger_rpcDeinit h.ok cmd (h.service_live (congrArg Serving.data hservice)) with
      ⟨hledger, hfault⟩
    refine h.moves ?_ (rpcDeinit_made _) hfault
    have hset : Utask.ledger { rpcDeinit u ⟨cmd, some p⟩ with service := .receiving } =
        { (rpcDeinit u ⟨cmd, some p⟩).ledger with
          served := (rpcDeinit u ⟨cmd, some p⟩).queue.filterMap Rpc.data } := rfl
    have hfinish : ({ u.ledger.finish p with served := u.queue.filterMap Rpc.data } :
        Ledger Task BufferPtr) =
        Ledger.finish { u.ledger with served := u.queue.filterMap Rpc.data } p := by
      rw [Ledger.finish, Ledger.finish]
      split_ifs <;> rfl
    rw [hset, hledger, rpcDeinit_queue, hfinish]
    exact .serve hserved

/-- Every step keeps the buffers in order. -/
theorem Utask.Inv.step {a : Act Task} (h : u.Inv)
    (hstep : Uservice.step u self queueCount a = some u') : u'.Inv := by
  revert hstep
  fun_cases Uservice.step u self queueCount a <;> intro hstep
  case case1 hmay rpc =>
    split_ifs at hstep <;> cases hstep <;>
      exact h.makes hmay.1.1 (Option.isNone_iff_eq_none.mp hmay.2) _ rfl
  case case3 hmay =>
    cases hstep
    exact h.stutter (ledger_setCall_same (by rw [hmay.1]; rfl)) rfl
  case case5 hmay =>
    cases hstep
    exact h.makes hmay.1.1 (Option.isNone_iff_eq_none.mp hmay.2) _ rfl
  case case7 hcall _ =>
    cases hstep
    exact h.send hcall
  case case8 hcall _ =>
    split_ifs at hstep <;> cases hstep <;>
      exact h.stutter (ledger_setCall_same (by rw [hcall]; rfl)) rfl
  case case10 hcall => exact h.wait hcall hstep
  case case12 hcall =>
    cases hstep
    exact h.deinit hcall
  case case14 hqueue hservice =>
    cases hstep
    exact h.recv hservice hqueue
  case case16 hservice _ =>
    cases hstep
    exact h.reply hservice
  case case19 hservice =>
    cases hstep
    exact h.finish hservice
  all_goals cases hstep

end Steps

/-! ## Whole runs -/

/-- All calls have returned, the queue is empty and the service has finished. -/
def Utask.Quiet (u : Utask Task) : Prop :=
  (∀ t, u.calls t = .idle) ∧ u.queue = [] ∧ u.service = .receiving

/-- A caller or the service has not yet finished with the buffer. -/
def Utask.InUse (u : Utask Task) (p : BufferPtr) : Prop :=
  (∃ t sent, (u.calls t).held = some (p, sent)) ∨
    p ∈ u.service.data.toList ++ u.queue.filterMap Rpc.data

theorem init_inv : (Utask.init : Utask Task).Inv where
  ok := by
    have hledger : (Utask.init : Utask Task).ledger = Ledger.empty := by
      have hlive : { p | (Utask.init : Utask Task).Live p } = ∅ := by
        refine Set.eq_empty_of_forall_notMem ?_
        rintro p ⟨b, hb, _⟩
        cases hb
      rw [Utask.ledger, hlive]
      rfl
    rw [hledger]
    exact Ledger.empty_ok
  serial_lt := by
    intro p hp
    cases hp
  sane := rfl

/-- In every run no buffer is freed twice, or while it is in use. After the run, all buffers were
freed exactly once and the cache is empty if and only if no call with a buffer has failed. -/
theorem rpc_buffers_released [DecidableEq Task] (self : Task) (queueCount : ℕ)
    (acts : List (Act Task)) (u : Utask Task)
    (hrun : run (fun u => Uservice.step u self queueCount) Utask.init acts = some u) :
    u.fault = false ∧ u.freed.Nodup ∧ (∀ p, u.InUse p → p ∉ u.freed) ∧
      (u.Quiet →
        ((∀ p ∈ u.made, u.freed.count p = 1) ∧ u.gcCache = [] ↔ u.failed = [])) := by
  have hinv : u.Inv := run_keeps (fun u a u' _ h hstep => Utask.Inv.step h hstep)
    (along_true acts Utask.init) init_inv hrun
  refine ⟨hinv.sane, hinv.ok.freed_nodup, fun p hp => hinv.ok.not_freed hp, ?_⟩
  rintro ⟨hcalls, hqueue, hservice⟩
  refine hinv.ok.all_freed_iff (fun t => congrArg Calling.held (hcalls t)) ?_
  rw [Utask.ledger, hservice, hqueue]
  rfl

instance (u : Utask Bool) : Decidable u.Quiet := inferInstanceAs (Decidable (_ ∧ _ ∧ _))

/-- A synchronous call: the service gives the buffer up first. -/
theorem rpc_buffers_released_sync :
    ∃ u : Utask Bool, run (fun u => Uservice.step u true 8) Utask.init
        [.callSync false 1 64, .send false, .recv, .reply, .finish, .wait false, .deinit false] =
          some u ∧
      u.Quiet ∧ u.failed = [] ∧ (∀ p ∈ u.made, u.freed.count p = 1) ∧ u.gcCache = [] := by
  obtain ⟨u, hu, hquiet, hfailed⟩ : ∃ u : Utask Bool, run (fun u => Uservice.step u true 8)
      Utask.init [.callSync false 1 64, .send false, .recv, .reply, .finish, .wait false,
        .deinit false] = some u ∧ u.Quiet ∧ u.failed = [] := by
    decide +kernel
  exact ⟨u, hu, hquiet, hfailed,
    ((rpc_buffers_released true 8 _ u hu).2.2.2 hquiet).mpr hfailed⟩

/-- A handler calls its own service: the buffer of the call stays in the cache. -/
theorem rpc_buffer_leaks :
    ∃ u : Utask Bool, run (fun u => Uservice.step u true 8) Utask.init
        [.callAsync false 1 none, .send false, .wait false, .deinit false, .recv,
          .callSync true 2 64, .deinit true, .reply] = some u ∧
      u.Quiet ∧ u.made = [⟨64, 0⟩] ∧ u.freed = [] ∧ u.gcCache = [⟨64, 0⟩] := by
  decide +kernel

end PineVoice.Uservice
