import PineVoice.IpcExchange

/-!
# The calls of a core

A synchronous call makes a queue, sends its request with the handle of the queue, and waits for
the first message in it. The ledger of a core says which request every queue waits for and which
answers are on the way. A queue that waits is never that of another request.
-/

namespace PineVoice.Ipc

open Function List

/-- A request that a queue waits for. -/
structure Call where
  /-- The service and the number of the request among the messages for it. -/
  key : ℕ × ℕ
  /-- `resp_len`. -/
  respLen : ℕ
deriving DecidableEq

/-- A queue of a synchronous call. -/
structure Queue where
  /-- The request, once it was sent. -/
  call : Option Call
  /-- The bytes of the answers in the queue. -/
  inbox : List (List UInt8)
deriving DecidableEq

/-- `aos_queue_send` of an answer; the buffer has room for two. -/
def Queue.put (q : Queue) (bytes : List UInt8) : Queue :=
  if q.inbox.length < 2 then ⟨q.call, q.inbox ++ [bytes]⟩ else q

/-- What the calls of a core depend on. -/
structure Ledger where
  /-- The messages that the core has sent to each service. -/
  sent : ℕ → List Message
  /-- The number of them that the service has received. -/
  got : ℕ → ℕ
  /-- The answers of each service that are on the way. -/
  acks : ℕ → List Message
  /-- The queues by their handles. -/
  queues : ℕ → Option Queue
  /-- The answers that were given. -/
  answer : ℕ × ℕ → Option (List UInt8)
  /-- What the calls that have returned found in `resp_data`. -/
  filled : ℕ × ℕ → Option (List UInt8)

/-- A synchronous request with this number. -/
def Ledger.IsRequest (l : Ledger) (k : ℕ × ℕ) (m : Message) : Prop :=
  (l.sent k.1)[k.2]? = some m ∧ m.kind = .sync

/-- Every queue belongs to its request, and every answer goes to the queue of its request. -/
structure Ledger.Ok (l : Ledger) : Prop where
  /-- An answer on the way finds an empty queue that waits for it. -/
  coming : ∀ id, ∀ a ∈ l.acks id, ∃ n,
    l.queues a.queue = some ⟨some ⟨(id, n), a.payload.length⟩, []⟩ ∧
      l.answer (id, n) = some a.payload
  /-- No two answers on the way have one queue. -/
  distinct : ∀ id, ((l.acks id).map (·.queue)).Nodup
  /-- The queue of a request without an answer waits for it. -/
  waiting : ∀ k m, l.IsRequest k m → l.answer k = none →
    l.queues m.queue = some ⟨some ⟨k, m.respLen⟩, []⟩
  /-- A queue is empty before its request is sent. -/
  unsent : ∀ h q, l.queues h = some q → q.call = none → q.inbox = []
  /-- A queue has at most the answer to its request. -/
  owned : ∀ h q c, l.queues h = some q → q.call = some c → (∃ m, l.IsRequest c.key m) ∧
    (q.inbox = [] ∨
      ∃ bytes, q.inbox = [bytes] ∧ bytes.length = c.respLen ∧ l.answer c.key = some bytes)
  /-- Only what was received is answered. -/
  answered : ∀ k bytes, l.answer k = some bytes → k.2 < l.got k.1
  /-- A call that has returned has the answer to its request. -/
  returned : ∀ k bytes, l.filled k = some bytes →
    l.answer k = some bytes ∧ ∃ m, l.IsRequest k m

section Steps

variable {l : Ledger}

variable {i j : ℕ} {z : Option Queue} {q : Queue} {a m m' : Message}

/-- A queue that is not the one that is replaced stays. -/
theorem Ledger.keep {x : Option Queue} (hi : l.queues i = x) (hj : l.queues j = some q)
    (hne : some q ≠ x) : update l.queues i z j = some q := by
  have hji : j ≠ i := by
    rintro rfl
    exact hne (hj.symm.trans hi)
  rw [update_of_ne hji, hj]

/-- A queue is the new one or was there. -/
theorem Ledger.queue_cases (h : update l.queues i z j = some q)
    : z = some q ∨ l.queues j = some q := by
  rcases eq_or_ne j i with rfl | hne
  · rw [update_self] at h
    exact .inl h
  · rw [update_of_ne hne] at h
    exact .inr h

/-- `aos_queue_new`. -/
theorem Ledger.Ok.newQueue (h : l.Ok) (hfree : l.queues i = none) :
    Ledger.Ok { l with queues := update l.queues i (some ⟨none, []⟩) } where
  coming id a ha := by
    obtain ⟨n, hq, hanswer⟩ := h.coming id a ha
    exact ⟨n, Ledger.keep hfree hq nofun, hanswer⟩
  distinct := h.distinct
  waiting k m hm hanswer := Ledger.keep hfree (h.waiting k m hm hanswer) nofun
  unsent j q hq hcall := by
    rcases Ledger.queue_cases hq with hnew | hold
    · cases hnew
      rfl
    · exact h.unsent j q hold hcall
  owned j q c hq hcall := by
    rcases Ledger.queue_cases hq with hnew | hold
    · cases hnew
      cases hcall
    · exact h.owned j q c hold hcall
  answered := h.answered
  returned := h.returned

/-- A message more for a service. -/
def Ledger.push (l : Ledger) (m : Message) : ℕ → List Message :=
  update l.sent m.serviceId (l.sent m.serviceId ++ [m])

/-- The messages that were sent keep their numbers. -/
theorem Ledger.IsRequest.push {k : ℕ × ℕ} (h : l.IsRequest k m') (m : Message) :
    (l.push m k.1)[k.2]? = some m' ∧ m'.kind = .sync := by
  refine ⟨?_, h.2⟩
  rw [Ledger.push]
  rcases eq_or_ne k.1 m.serviceId with heq | hne
  · rw [← heq, update_self, getElem?_append_left (List.getElem?_eq_some_iff.mp h.1).1, h.1]
  · rw [update_of_ne hne, h.1]

/-- The messages with one more are the old ones and this one. -/
theorem getElem?_push {k : ℕ × ℕ} (h : (l.push m k.1)[k.2]? = some m') :
    (l.sent k.1)[k.2]? = some m' ∨ (k = (m.serviceId, (l.sent m.serviceId).length) ∧ m' = m) := by
  rw [Ledger.push] at h
  rcases eq_or_ne k.1 m.serviceId with heq | hne
  · rw [← heq, update_self] at h
    rcases lt_or_ge k.2 (l.sent k.1).length with hlt | hge
    · rw [getElem?_append_left hlt] at h
      exact .inl h
    · rw [getElem?_append_right hge, getElem?_singleton] at h
      split_ifs at h with hzero
      refine .inr ⟨Prod.ext heq ?_, (Option.some.inj h).symm⟩
      rw [← heq]
      omega
  · rw [update_of_ne hne] at h
    exact .inl h

/-- A message that is no request. -/
theorem Ledger.Ok.send (h : l.Ok) (hm : m.kind ≠ .sync) :
    Ledger.Ok { l with sent := l.push m } where
  coming := h.coming
  distinct := h.distinct
  waiting k m' hreq hanswer := by
    rcases getElem?_push hreq.1 with hold | ⟨-, rfl⟩
    · exact h.waiting k m' ⟨hold, hreq.2⟩ hanswer
    · exact absurd hreq.2 hm
  unsent := h.unsent
  owned i q c hq hcall := by
    obtain ⟨⟨m', hreq⟩, hin⟩ := h.owned i q c hq hcall
    exact ⟨⟨m', hreq.push m⟩, hin⟩
  answered := h.answered
  returned k bytes hk := by
    obtain ⟨hanswer, m', hreq⟩ := h.returned k bytes hk
    exact ⟨hanswer, m', hreq.push m⟩

/-- A request whose queue was made for it. -/
theorem Ledger.Ok.request (h : l.Ok) (hm : m.kind = .sync) {inbox : List (List UInt8)}
    (hqueue : l.queues m.queue = some ⟨none, inbox⟩) :
    Ledger.Ok { l with
      sent := l.push m
      queues := update l.queues m.queue
        (some ⟨some ⟨(m.serviceId, (l.sent m.serviceId).length), m.respLen⟩, inbox⟩) } := by
  have hempty : inbox = [] := h.unsent _ _ hqueue rfl
  refine ⟨fun id a ha => ?_, h.distinct, fun k m' hreq hanswer => ?_, fun i q hq hcall => ?_,
    fun i q c hq hcall => ?_, h.answered, fun k bytes hk => ?_⟩
  · obtain ⟨n, hq, hanswer⟩ := h.coming id a ha
    exact ⟨n, Ledger.keep hqueue hq nofun, hanswer⟩
  · rcases getElem?_push hreq.1 with hold | ⟨rfl, rfl⟩
    · exact Ledger.keep hqueue (h.waiting k m' ⟨hold, hreq.2⟩ hanswer) nofun
    · show update l.queues m'.queue _ m'.queue = _
      rw [update_self, hempty]
  · rcases Ledger.queue_cases hq with hnew | hold
    · cases hnew
      cases hcall
    · exact h.unsent i q hold hcall
  · rcases Ledger.queue_cases hq with hnew | hold
    · cases hnew
      cases hcall
      refine ⟨⟨m, ?_, hm⟩, .inl hempty⟩
      show (l.push m m.serviceId)[(l.sent m.serviceId).length]? = some m
      rw [Ledger.push, update_self, getElem?_concat_length]
    · obtain ⟨⟨m', hreq⟩, hin⟩ := h.owned i q c hold hcall
      exact ⟨⟨m', hreq.push m⟩, hin⟩
  · obtain ⟨hanswer, m', hreq⟩ := h.returned k bytes hk
    exact ⟨hanswer, m', hreq.push m⟩

/-- A service has received more. -/
theorem Ledger.Ok.receive (h : l.Ok) {got : ℕ → ℕ} (hmore : ∀ id, l.got id ≤ got id) :
    Ledger.Ok { l with got := got } :=
  { h with
    answered := fun k bytes hk => lt_of_lt_of_le (h.answered k bytes hk) (hmore k.1) }

/-- The first answer to a request that was received. -/
theorem Ledger.Ok.give (h : l.Ok) {k : ℕ × ℕ} (hreq : l.IsRequest k m) (hgot : k.2 < l.got k.1)
    (hnone : l.answer k = none) (hqueue : a.queue = m.queue) (hlen : a.payload.length = m.respLen) :
    Ledger.Ok { l with
      acks := update l.acks k.1 (l.acks k.1 ++ [a])
      answer := update l.answer k (some a.payload) } := by
  have hwait := h.waiting k m hreq hnone
  have hkeep : ∀ {k' bytes}, l.answer k' = some bytes →
      update l.answer k (some a.payload) k' = some bytes := by
    intro k' bytes hk'
    have hne : k' ≠ k := by
      rintro rfl
      rw [hnone] at hk'
      cases hk'
    exact (update_of_ne hne _ _).trans hk'
  have hold : ∀ i, ∀ b ∈ l.acks i, ∃ n,
      l.queues b.queue = some ⟨some ⟨(i, n), b.payload.length⟩, []⟩ ∧
        update l.answer k (some a.payload) (i, n) = some b.payload := by
    intro i b hb
    obtain ⟨n, hq, hanswer⟩ := h.coming i b hb
    exact ⟨n, hq, hkeep hanswer⟩
  refine ⟨fun i b hb => ?_, fun i => ?_, fun k' m' hm' hk' => ?_, h.unsent,
    fun i q c hq hcall => ?_, fun k' bytes hk' => ?_, fun k' bytes hk' => ?_⟩
  · rcases eq_or_ne i k.1 with rfl | hne
    · simp only [update_self] at hb
      rcases List.mem_append.mp hb with hb | hb
      · exact hold k.1 b hb
      · obtain rfl := List.mem_singleton.mp hb
        refine ⟨k.2, ?_, update_self _ _ _⟩
        rw [hqueue, hwait, hlen]
    · simp only [update_of_ne hne] at hb
      exact hold i b hb
  · rcases eq_or_ne i k.1 with rfl | hne
    · simp only [update_self, map_append, map_singleton]
      refine List.nodup_append.mpr ⟨h.distinct k.1, nodup_singleton _, ?_⟩
      rintro x hx y hy rfl
      obtain ⟨b, hb, hbq⟩ := List.mem_map.mp hx
      obtain ⟨n, hq, hanswer⟩ := h.coming k.1 b hb
      rw [hbq, List.mem_singleton.mp hy, hqueue, hwait] at hq
      have hkey : k = (k.1, n) := by injections
      rw [← hkey, hnone] at hanswer
      cases hanswer
    · simp only [update_of_ne hne]
      exact h.distinct i
  · have hne : k' ≠ k := by
      rintro rfl
      simp only [update_self] at hk'
      cases hk'
    simp only [update_of_ne hne] at hk'
    exact h.waiting k' m' hm' hk'
  · obtain ⟨hc, hin⟩ := h.owned i q c hq hcall
    refine ⟨hc, hin.imp_right ?_⟩
    rintro ⟨bytes, hbox, hbytes, hanswer⟩
    exact ⟨bytes, hbox, hbytes, hkeep hanswer⟩
  · rcases eq_or_ne k' k with rfl | hne
    · exact hgot
    · simp only [update_of_ne hne] at hk'
      exact h.answered k' bytes hk'
  · obtain ⟨hanswer, hm'⟩ := h.returned k' bytes hk'
    exact ⟨hkeep hanswer, hm'⟩

/-- The next answer of a service arrives in its queue. -/
theorem Ledger.Ok.arrive (h : l.Ok) {id : ℕ} {rest : List Message} (hacks : l.acks id = a :: rest) :
    Ledger.Ok { l with
      acks := update l.acks id rest
      queues := update l.queues a.queue
        ((l.queues a.queue).map fun q => q.put a.payload) } := by
  obtain ⟨n, hqueue, hanswer⟩ := h.coming id a (hacks ▸ mem_cons_self)
  have hdistinct := h.distinct id
  rw [hacks, map_cons, nodup_cons] at hdistinct
  have hsub : ∀ i b, b ∈ update l.acks id rest i → b ∈ l.acks i ∧ b.queue ≠ a.queue := by
    intro i b hb
    rcases eq_or_ne i id with rfl | hne
    · rw [update_self] at hb
      refine ⟨hacks ▸ mem_cons_of_mem a hb, fun heq => hdistinct.1 ?_⟩
      rw [← heq]
      exact List.mem_map_of_mem hb
    · rw [update_of_ne hne] at hb
      refine ⟨hb, fun heq => ?_⟩
      obtain ⟨n', hq, -⟩ := h.coming i b hb
      rw [heq, hqueue] at hq
      have hkey : (id, n) = (i, n') := by injections
      exact hne (congrArg Prod.fst hkey).symm
  have hput : (l.queues a.queue).map (fun q => q.put a.payload) =
      some ⟨some ⟨(id, n), a.payload.length⟩, [a.payload]⟩ := by
    rw [hqueue]
    rfl
  rw [hput]
  refine ⟨fun i b hb => ?_, fun i => ?_, fun k m hm hk => ?_, fun i q hq hcall => ?_,
    fun i q c hq hcall => ?_, h.answered, h.returned⟩
  · obtain ⟨hmem, hne⟩ := hsub i b hb
    obtain ⟨n', hq, hb'⟩ := h.coming i b hmem
    exact ⟨n', (update_of_ne hne _ _).trans hq, hb'⟩
  · rcases eq_or_ne i id with rfl | hne
    · simp only [update_self]
      exact hdistinct.2
    · simp only [update_of_ne hne]
      exact h.distinct i
  · refine Ledger.keep hqueue (h.waiting k m hm hk) fun heq => ?_
    have hkey : k = (id, n) := by injections
    rw [← hkey, show l.answer k = none from hk] at hanswer
    cases hanswer
  · rcases Ledger.queue_cases hq with hnew | hold
    · cases hnew
      cases hcall
    · exact h.unsent i q hold hcall
  · rcases Ledger.queue_cases hq with hnew | hold
    · cases hnew
      cases hcall
      exact ⟨(h.owned _ _ _ hqueue rfl).1, .inr ⟨a.payload, rfl, rfl, hanswer⟩⟩
    · exact h.owned i q c hold hcall

/-- A call takes the answer from its queue, which has the expected length, and frees the
queue. -/
theorem Ledger.Ok.ret (h : l.Ok) {c : Call} {bytes : List UInt8} {more : List (List UInt8)}
    (hqueue : l.queues i = some ⟨some c, bytes :: more⟩) :
    bytes.length = c.respLen ∧ Ledger.Ok { l with
        queues := update l.queues i none
        filled := update l.filled c.key (some bytes) } := by
  obtain ⟨hreq, hin⟩ := h.owned i _ c hqueue rfl
  obtain ⟨hlen, hanswer⟩ : bytes.length = c.respLen ∧ l.answer c.key = some bytes := by
    rcases hin with hnil | ⟨b, hb, hlen, hanswer⟩
    · cases hnil
    · obtain ⟨rfl, -⟩ := List.cons.inj hb
      exact ⟨hlen, hanswer⟩
  refine ⟨hlen, fun id a ha => ?_, h.distinct, fun k m hm hk => ?_, fun j q hq hcall => ?_,
    fun j q c' hq hcall => ?_, h.answered, fun k b hk => ?_⟩
  · obtain ⟨n, hq, ha'⟩ := h.coming id a ha
    exact ⟨n, Ledger.keep hqueue hq nofun, ha'⟩
  · exact Ledger.keep hqueue (h.waiting k m hm hk) nofun
  · rcases Ledger.queue_cases hq with hnew | hold
    · cases hnew
    · exact h.unsent j q hold hcall
  · rcases Ledger.queue_cases hq with hnew | hold
    · cases hnew
    · exact h.owned j q c' hold hcall
  · rcases eq_or_ne k c.key with rfl | hne
    · simp only [update_self] at hk
      rw [← hk]
      exact ⟨hanswer, hreq⟩
    · simp only [update_of_ne hne] at hk
      exact h.returned k b hk

end Steps

end PineVoice.Ipc
