import PineVoice.DhcpReturns

/-!
# The outcome of a DHCP packet

What others can see of `dhcp_server_recv` are the leases afterwards and the reply. With enough
iterations for the scans of the options, this outcome is a function of the message type, the
hardware address, the requested address and the result of the search for a free address.
-/

namespace PineVoice.Dhcp

open Option

section Outcome

/-- What is sent for a packet: the kind of reply and its `yiaddr`. -/
def Event.reply : Event → Option (ReplyType × UInt32)
  | .silent | .released _ => none
  | .sent type _ yiaddr => some (type, yiaddr)

/-- The leases afterwards and the reply. -/
abbrev Outcome := List Node × Option (ReplyType × UInt32)

/-- `dhcp_server_recv` returns with this outcome, from some number of iterations on. -/
def Gives (s : Server) (p : Packet) (o : Outcome) : Prop :=
  ∃ rounds, ∀ fuel, rounds ≤ fuel →
    (dhcpServerRecv fuel s p).map (fun r => (r.1.nodeList, r.2.reply)) = some o

/-- The outcome if the search for a free address ends with `free`. -/
def settle (s : Server) (p : Packet) (free : Option UInt32) : Option Outcome :=
  if p.Dropped then some (s.nodeList, none)
  else
    match p.msgType with
    | none => some (s.nodeList, none)
    | some type =>
      if type = 1 then
        match dhcpClientFindByMac s.nodeList p.chaddr with
        | some node => some (s.nodeList, some (.offer, node.ipaddr))
        | none =>
          match p.requestedIp.bind (dhcpClientFindByIp s.nodeList) with
          | some node => some (s.nodeList, some (.offer, node.ipaddr))
          | none => free.map fun ip =>
            if p.memMalloc then (p.newNode ip :: s.nodeList, some (.offer, ip))
            else (s.nodeList, none)
      else if type = 3 then
        match dhcpClientFindByMac s.nodeList p.chaddr with
        | some node => some (s.nodeList, some (.ack, node.ipaddr))
        | none => some (s.nodeList, some (.nak, 0))
      else if type = 7 then
        (releaseLoop p.chaddr [] [] s.nodeList).map fun nodeList => (nodeList, none)
      else some (s.nodeList, none)

variable {s : Server} {p : Packet} {fuel : ℕ}

/-- A request is answered from the list of hardware addresses alone: a node with the requested
address counts only if it matches as well. -/
theorem clientFind_eq (hfuel : bufLen < fuel) :
    dhcpClientFind fuel s p = some (dhcpClientFindByMac s.nodeList p.chaddr) := by
  unfold dhcpClientFind
  cases hmac : dhcpClientFindByMac s.nodeList p.chaddr with
  | some node => rfl
  | none =>
    rw [p.findOption_eq 50 hfuel, map_some]
    cases p.option 50 with
    | none => rfl
    | some opt =>
      dsimp only
      cases hip : dhcpClientFindByIp s.nodeList (ipAt p.mem (opt+2)) with
      | none => rfl
      | some node =>
        have hno := List.find?_eq_none.mp hmac node (findByIp_mem hip).1
        exact congrArg some (if_neg fun hmatch => hno (decide_eq_true hmatch))

/-- A discover without a node. -/
theorem clientAlloc_eq (hfuel : bufLen < fuel)
    (hmac : dhcpClientFindByMac s.nodeList p.chaddr = none) :
    dhcpClientAlloc fuel s p = match p.requestedIp.bind (dhcpClientFindByIp s.nodeList) with
      | some node => some (s, some node)
      | none => dhcpClientNew fuel s p := by
  unfold dhcpClientAlloc
  rw [hmac, p.findOption_eq 50 hfuel, Packet.requestedIp]
  cases p.option 50 with
  | none => rfl
  | some opt => rfl

/-- With enough iterations for the scans the outcome depends on the search only. -/
theorem recv_eq_settle (hfuel : bufLen < fuel) :
    (dhcpServerRecv fuel s p).map (fun r => (r.1.nodeList, r.2.reply)) =
      settle s p (dhcpAllocAgain s.nodeList s.startIp s.endIp fuel s.current) := by
  unfold dhcpServerRecv settle
  by_cases hdropped : p.Dropped
  · rw [if_pos hdropped, if_pos hdropped]
    rfl
  rw [if_neg hdropped, if_neg hdropped, p.findOption_eq 53 hfuel, bind_some, Packet.msgType]
  cases p.option 53 with
  | none => rfl
  | some opt =>
    dsimp only [map_some]
    by_cases hdiscover : p.mem (opt+2) = 1
    · rw [if_pos hdiscover, if_pos hdiscover]
      cases hmac : dhcpClientFindByMac s.nodeList p.chaddr with
      | some node =>
        rw [dhcpClientAlloc, hmac]
        rfl
      | none =>
        rw [clientAlloc_eq hfuel hmac]
        cases p.requestedIp.bind (dhcpClientFindByIp s.nodeList) with
        | some node => rfl
        | none =>
          rw [dhcpClientNew]
          cases dhcpAllocAgain s.nodeList s.startIp s.endIp fuel s.current with
          | none => rfl
          | some ip => cases p.memMalloc <;> rfl
    rw [if_neg hdiscover, if_neg hdiscover]
    by_cases hrequest : p.mem (opt+2) = 3
    · rw [if_pos hrequest, if_pos hrequest, clientFind_eq hfuel]
      cases dhcpClientFindByMac s.nodeList p.chaddr <;> rfl
    rw [if_neg hrequest, if_neg hrequest]
    by_cases hrelease : p.mem (opt+2) = 7
    · rw [if_pos hrelease, if_pos hrelease]
      cases releaseLoop p.chaddr [] [] s.nodeList <;> rfl
    · rw [if_neg hrelease, if_neg hrelease]
      rfl

/-- More iterations do not change the address that is found. -/
theorem allocAgain_mono {nodeList : List Node} {startIp endIp : UInt32} {fuel fuel' : ℕ}
    {current ip : UInt32} (hle : fuel ≤ fuel')
    (h : dhcpAllocAgain nodeList startIp endIp fuel current = some ip) :
    dhcpAllocAgain nodeList startIp endIp fuel' current = some ip := by
  induction fuel generalizing fuel' current with
  | zero => cases h
  | succ fuel ih =>
    obtain ⟨fuel', rfl⟩ : ∃ n, fuel' = n+1 := ⟨fuel'-1, by omega⟩
    rw [dhcpAllocAgain] at h ⊢
    cases hnode : dhcpClientFindByIp nodeList current with
    | none =>
      rw [hnode] at h
      exact h
    | some node =>
      rw [hnode] at h
      exact ih (by omega) h

/-- The search for a free address ends with this one. -/
def Server.Finds (s : Server) (ip : UInt32) : Prop :=
  ∃ fuel, dhcpAllocAgain s.nodeList s.startIp s.endIp fuel s.current = some ip

/-- The search has one result for all numbers of iterations that are enough. -/
theorem exists_free (s : Server) : ∃ free : Option UInt32, (∀ ip, free = some ip → s.Finds ip) ∧
    ((∃ ip, s.Finds ip) → free.isSome) ∧ ∃ rounds, ∀ fuel, rounds ≤ fuel →
      dhcpAllocAgain s.nodeList s.startIp s.endIp fuel s.current = free := by
  by_cases hfinds : ∃ ip, s.Finds ip
  · rcases hfinds with ⟨ip, fuel, hfuel⟩
    refine ⟨some ip, fun ip' h => ?_, fun _ => rfl, fuel, fun fuel' hle => allocAgain_mono hle hfuel⟩
    rw [← Option.some.inj h]
    exact ⟨fuel, hfuel⟩
  · refine ⟨none, fun ip h => (by cases h), fun h => absurd h hfinds, 0, fun fuel _ => ?_⟩
    cases halloc : dhcpAllocAgain s.nodeList s.startIp s.endIp fuel s.current with
    | none => rfl
    | some ip => exact absurd ⟨ip, fuel, halloc⟩ hfinds

/-- Two packets have the same outcome if they settle alike. -/
theorem gives_iff_settle {free : Option UInt32} {rounds : ℕ}
    (hfree : ∀ fuel, rounds ≤ fuel →
      dhcpAllocAgain s.nodeList s.startIp s.endIp fuel s.current = free) (o : Outcome) :
    Gives s p o ↔ settle s p free = some o := by
  constructor
  · rintro ⟨enough, h⟩
    have hrecv := h (max enough (max rounds (bufLen+1))) (by omega)
    rwa [recv_eq_settle (by omega), hfree _ (by omega)] at hrecv
  · refine fun h => ⟨max rounds (bufLen+1), fun fuel hfuel => ?_⟩
    rw [recv_eq_settle (by omega), hfree fuel (by omega), h]

end Outcome

section Settled

variable {s : Server} {p : Packet} {free : Option UInt32}

theorem settle_of_dropped (h : p.Dropped) : settle s p free = some (s.nodeList, none) := by
  rw [settle, if_pos h]

theorem settle_of_none (hacc : ¬p.Dropped) (h : p.msgType = none) :
    settle s p free = some (s.nodeList, none) := by
  rw [settle, if_neg hacc, h]

theorem settle_of_unknown (hacc : ¬p.Dropped) (h : p.msgType = some 0) :
    settle s p free = some (s.nodeList, none) := by
  rw [settle, if_neg hacc, h]
  rfl

/-- A request is always answered. -/
theorem settle_of_request (s : Server) (free : Option UInt32) (hacc : ¬p.Dropped)
    (h : p.msgType = some 3) : ∃ r, settle s p free = some (s.nodeList, some r) := by
  rw [settle, if_neg hacc, h]
  cases dhcpClientFindByMac s.nodeList p.chaddr with
  | none => exact ⟨_, rfl⟩
  | some node => exact ⟨_, rfl⟩

/-- A discover for an address that is leased. -/
theorem settle_of_leased (hacc : ¬p.Dropped) (h : p.msgType = some 1)
    (hmac : dhcpClientFindByMac s.nodeList p.chaddr = none) {node : Node}
    (hnode : p.requestedIp.bind (dhcpClientFindByIp s.nodeList) = some node) :
    settle s p free = some (s.nodeList, some (.offer, node.ipaddr)) := by
  rw [settle, if_neg hacc, h]
  dsimp only
  rw [if_pos rfl, hmac, hnode]

/-- A discover that needs a new node. -/
theorem settle_of_new (hacc : ¬p.Dropped) (h : p.msgType = some 1)
    (hmac : dhcpClientFindByMac s.nodeList p.chaddr = none)
    (hnode : p.requestedIp.bind (dhcpClientFindByIp s.nodeList) = none) :
    settle s p free = free.map fun ip =>
      if p.memMalloc then (p.newNode ip :: s.nodeList, some (.offer, ip))
      else (s.nodeList, none) := by
  rw [settle, if_neg hacc, h]
  dsimp only
  rw [if_pos rfl, hmac, hnode]

/-- The outcome of a new node is not that of a leased address. -/
theorem settle_new_ne_leased (o : Outcome)
    (h : (free.map fun ip => if p.memMalloc then (p.newNode ip :: s.nodeList,
      some (ReplyType.offer, ip)) else (s.nodeList, none)) = some o) (r : ReplyType × UInt32) :
    o ≠ (s.nodeList, some r) := by
  rcases Option.map_eq_some_iff.mp h with ⟨ip, -, rfl⟩
  split_ifs
  · intro heq
    have hlen := congrArg (fun o : Outcome => o.1.length) heq
    simp only [List.length_cons] at hlen
    omega
  · exact fun heq => by cases heq

end Settled

end PineVoice.Dhcp
