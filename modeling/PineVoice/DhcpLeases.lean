import Mathlib.Data.List.Nodup
import Mathlib.Logic.Function.Iterate
import PineVoice.Dhcp

/-!
# Leases are unique and in range

A packet keeps the leases good unless the address length is not six, a client without a lease asks
for an address that is leased, or a release meets its node at an even position behind the first
one, which also takes the node before it out of the list.
-/

namespace PineVoice.Dhcp

open Transition List

section Options

variable {mem : ℕ → UInt8} {bufEnd : ℕ} {code : UInt8}

/-- The scan moves on by two bytes at least, so it ends. -/
theorem optionFind_isSome : ∀ (fuel buf : ℕ), bufEnd ≤ fuel+buf →
    (dhcpServerOptionFind mem bufEnd code (fuel+1) buf).isSome
  | 0, buf, hle => by
    rw [dhcpServerOptionFind, if_neg (by omega)]
    rfl
  | fuel+1, buf, hle => by
    rw [dhcpServerOptionFind]
    split_ifs
    · rfl
    · exact optionFind_isSome fuel _ (by omega)
    · rfl

/-- More fuel does not change the result. -/
theorem optionFind_mono : ∀ {fuel fuel' buf : ℕ} {r : Option ℕ}, fuel ≤ fuel' →
    dhcpServerOptionFind mem bufEnd code fuel buf = some r →
    dhcpServerOptionFind mem bufEnd code fuel' buf = some r
  | 0, _, _, _, _, h => by cases h
  | fuel+1, 0, _, _, hle, _ => absurd hle (Nat.not_succ_le_zero fuel)
  | fuel+1, fuel'+1, buf, r, hle, h => by
    unfold dhcpServerOptionFind at h ⊢
    split_ifs at h ⊢
    · exact h
    · exact optionFind_mono (Nat.le_of_succ_le_succ hle) h
    · exact h

/-- The option that the scan finds. -/
def Packet.option (p : Packet) (code : UInt8) : Option ℕ := (p.findOption (bufLen+1) code).join

variable {fuel : ℕ}

theorem Packet.findOption_eq (p : Packet) (code : UInt8) (hfuel : bufLen < fuel) :
    p.findOption fuel code = some (p.option code) := by
  have hsome : (p.findOption (bufLen+1) code).isSome :=
    optionFind_isSome bufLen optionsOfs (by decide)
  rcases Option.isSome_iff_exists.mp hsome with ⟨r, hr⟩
  rw [Packet.option, hr]
  exact optionFind_mono hfuel hr

theorem Packet.eq_option {p : Packet} {code : UInt8} {r : Option ℕ}
    (h : p.findOption fuel code = some r) : r = p.option code := by
  have hmore : p.findOption (fuel+bufLen+1) code = some r := optionFind_mono (by omega) h
  rw [p.findOption_eq code (by omega)] at hmore
  exact (Option.some.inj hmore).symm

/-- The message type. -/
def Packet.msgType (p : Packet) : Option UInt8 := (p.option 53).map fun opt => p.mem (opt+2)

/-- The address a client asks for. -/
def Packet.requestedIp (p : Packet) : Option UInt32 :=
  (p.option 50).map fun opt => ipAt p.mem (opt+2)

end Options

/-- The ways through `dhcp_server_recv`. -/
inductive Handled (s : Server) (p : Packet) : Server → Event → Prop where
  /-- Nothing is done. -/
  | silent : Handled s p s .silent
  /-- A client with a node asks for an address. -/
  | known {node : Node} (haccepted : ¬p.Dropped) (hmem : node ∈ s.nodeList)
      (hmac : node.Matches p.chaddr) (type : ReplyType) :
      Handled s p s (.sent type p.chaddr node.ipaddr)
  /-- A client without a node asks for an address that is leased. -/
  | leased {node : Node} {ip : UInt32} (haccepted : ¬p.Dropped) (htype : p.msgType = some 1)
      (hmac : dhcpClientFindByMac s.nodeList p.chaddr = none) (hip : p.requestedIp = some ip)
      (hnode : dhcpClientFindByIp s.nodeList ip = some node) :
      Handled s p s (.sent .offer p.chaddr node.ipaddr)
  /-- A new node. -/
  | new {fuel : ℕ} {current : UInt32} (haccepted : ¬p.Dropped)
      (hfree : dhcpAllocAgain s.nodeList s.startIp s.endIp fuel s.current = some current) :
      Handled s p { s with nodeList := p.newNode current :: s.nodeList, current := current }
        (.sent .offer p.chaddr current)
  /-- There is no memory for a new node. -/
  | noMemory {fuel : ℕ} {current : UInt32}
      (hfree : dhcpAllocAgain s.nodeList s.startIp s.endIp fuel s.current = some current) :
      Handled s p { s with current := current } .silent
  /-- A request without a node is refused. -/
  | refused : Handled s p s (.sent .nak p.chaddr 0)
  /-- A release. -/
  | released {nodeList : List Node} (haccepted : ¬p.Dropped) (htype : p.msgType = some 7)
      (hloop : releaseLoop p.chaddr [] [] s.nodeList = some nodeList) :
      Handled s p { s with nodeList := nodeList } (.released p.chaddr)

section Cases

variable {fuel : ℕ} {s s' : Server} {p : Packet} {event : Event}

variable {nodeList : List Node} {node : Node} {ip : UInt32}

theorem findByMac_mem {chaddr : List UInt8} (h : dhcpClientFindByMac nodeList chaddr = some node) :
    node ∈ nodeList ∧ node.Matches chaddr := by
  have hmatch := find?_some h
  exact ⟨mem_of_find?_eq_some h, of_decide_eq_true hmatch⟩

theorem findByIp_mem (h : dhcpClientFindByIp nodeList ip = some node)
    : node ∈ nodeList ∧ node.ipaddr = ip := by
  have heq := find?_some h
  exact ⟨mem_of_find?_eq_some h, of_decide_eq_true heq⟩

theorem findByIp_none (h : dhcpClientFindByIp nodeList ip = none) (hmem : node ∈ nodeList) :
    node.ipaddr ≠ ip := by
  have hne := List.find?_eq_none.mp h node hmem
  exact fun heq => hne (decide_eq_true heq)

/-- A discover. -/
theorem alloc_handled (haccepted : ¬p.Dropped) (htype : p.msgType = some 1)
    {node : Option Node} (h : dhcpClientAlloc fuel s p = some (s', node)) :
    Handled s p s' (match node with
      | none => .silent
      | some node => .sent .offer p.chaddr node.ipaddr) := by
  have hnew : dhcpClientNew fuel s p = some (s', node) → Handled s p s' (match node with
      | none => .silent
      | some node => .sent .offer p.chaddr node.ipaddr) := by
    intro hnew
    rcases Option.map_eq_some_iff.mp hnew with ⟨current, hfree, hres⟩
    split_ifs at hres
    · cases hres
      exact .new haccepted hfree
    · cases hres
      exact .noMemory hfree
  unfold dhcpClientAlloc at h
  cases hmac : dhcpClientFindByMac s.nodeList p.chaddr with
  | some known =>
    rw [hmac] at h
    cases h
    exact .known haccepted (findByMac_mem hmac).1 (findByMac_mem hmac).2 .offer
  | none =>
    rw [hmac] at h
    rcases Option.bind_eq_some_iff.mp h with ⟨opt, hopt, hrest⟩
    cases opt with
    | none => exact hnew hrest
    | some opt =>
      have hip : p.requestedIp = some (ipAt p.mem (opt+2)) := by
        rw [Packet.requestedIp, ← Packet.eq_option hopt]
        rfl
      dsimp only at hrest
      cases hnode : dhcpClientFindByIp s.nodeList (ipAt p.mem (opt+2)) with
      | some other =>
        rw [hnode] at hrest
        cases hrest
        exact .leased haccepted htype hmac hip hnode
      | none =>
        rw [hnode] at hrest
        exact hnew hrest

/-- A request. -/
theorem find_handled (haccepted : ¬p.Dropped) {node : Option Node}
    (h : dhcpClientFind fuel s p = some node) :
    Handled s p s (match node with
      | none => .sent .nak p.chaddr 0
      | some node => .sent .ack p.chaddr node.ipaddr) := by
  unfold dhcpClientFind at h
  cases hmac : dhcpClientFindByMac s.nodeList p.chaddr with
  | some known =>
    rw [hmac] at h
    cases h
    exact .known haccepted (findByMac_mem hmac).1 (findByMac_mem hmac).2 .ack
  | none =>
    rw [hmac] at h
    rcases Option.map_eq_some_iff.mp h with ⟨opt, -, hrest⟩
    cases opt with
    | none =>
      cases hrest
      exact .refused
    | some opt =>
      dsimp only at hrest
      cases hnode : dhcpClientFindByIp s.nodeList (ipAt p.mem (opt+2)) with
      | some other =>
        rw [hnode] at hrest
        dsimp only at hrest
        split_ifs at hrest with hmatch
        · cases hrest
          exact .known haccepted (findByIp_mem hnode).1 hmatch .ack
        · cases hrest
          exact .refused
      | none =>
        rw [hnode] at hrest
        cases hrest
        exact .refused

/-- Every packet is handled by one of the rules. -/
theorem recv_handled (h : dhcpServerRecv fuel s p = some (s', event)) : Handled s p s' event := by
  unfold dhcpServerRecv at h
  split_ifs at h with haccepted
  · cases h
    exact .silent
  rcases Option.bind_eq_some_iff.mp h with ⟨opt, hopt, hrest⟩
  cases opt with
  | none =>
    cases hrest
    exact .silent
  | some opt =>
    have htype : p.msgType = some (p.mem (opt+2)) := by
      rw [Packet.msgType, ← Packet.eq_option hopt]
      rfl
    dsimp only at hrest
    split_ifs at hrest with hdiscover hrequest hrelease
    · rcases Option.map_eq_some_iff.mp hrest with ⟨⟨t, node⟩, halloc, hres⟩
      have hhandled := alloc_handled haccepted (hdiscover ▸ htype) halloc
      cases node with
      | none =>
        cases hres
        exact hhandled
      | some node =>
        cases hres
        exact hhandled
    · rcases Option.map_eq_some_iff.mp hrest with ⟨node, hfind, hres⟩
      have hhandled := find_handled haccepted hfind
      cases node with
      | none =>
        cases hres
        exact hhandled
      | some node =>
        cases hres
        exact hhandled
    · rcases Option.map_eq_some_iff.mp hrest with ⟨nodeList, hloop, hres⟩
      cases hres
      exact .released haccepted (hrelease ▸ htype) hloop
    · cases hrest
      exact .silent

end Cases

section Release

/-- The nodes that a release looks at. -/
def everyOther {α : Type*} : List α → List α
  | [] => []
  | [a] => [a]
  | a :: _ :: rest => a :: everyOther rest

variable {chaddr : List UInt8}

/-- A release that matches nothing it looks at leaves the list as it is. -/
theorem releaseLoop_skips : ∀ {upTo between nodes nodeList : List Node},
    (∀ node ∈ everyOther nodes, ¬node.Matches chaddr) →
    releaseLoop chaddr upTo between nodes = some nodeList → nodeList = upTo ++ between ++ nodes
  | upTo, between, [], nodeList, _, h => by
    rw [List.append_nil]
    exact (Option.some.inj h).symm
  | upTo, between, [node], nodeList, hno, h => by
    rw [releaseLoop, if_neg (hno node List.mem_cons_self)] at h
    cases h
  | upTo, between, node :: other :: rest, nodeList, hno, h => by
    rw [releaseLoop, if_neg (hno node List.mem_cons_self)] at h
    rw [releaseLoop_skips (fun n hn => hno n (List.mem_cons_of_mem node hn)) h]
    simp

/-- A release takes only the first node out of the list, or none. -/
def ReleasesFirst (chaddr : List UInt8) (nodes : List Node) : Prop :=
  (∀ node ∈ nodes.head?, node.Matches chaddr) ∨ ∀ node ∈ everyOther nodes, ¬node.Matches chaddr

instance (chaddr : List UInt8) (nodes : List Node) : Decidable (ReleasesFirst chaddr nodes) :=
  inferInstanceAs (Decidable (_ ∨ _))

theorem releaseLoop_first {nodes nodeList : List Node} (hfirst : ReleasesFirst chaddr nodes)
    (h : releaseLoop chaddr [] [] nodes = some nodeList) :
    nodeList = nodes ∨ ∃ node, node.Matches chaddr ∧ nodes = node :: nodeList := by
  rcases hfirst with hhead | hno
  · match nodes, hhead with
    | [], _ => exact .inl (Option.some.inj h).symm
    | [node], hhead =>
      have hmatch := hhead node rfl
      rw [releaseLoop, if_pos hmatch] at h
      exact .inr ⟨node, hmatch, by rw [← Option.some.inj h]⟩
    | node :: other :: rest, hhead =>
      have hmatch := hhead node rfl
      rw [releaseLoop, if_pos hmatch] at h
      exact .inr ⟨node, hmatch, by rw [← Option.some.inj h]; rfl⟩
  · exact .inl (releaseLoop_skips hno h)

end Release

/-- The packet does not use what breaks the leases: an address length other than six, a
discover without a node for an address that is leased, a release that takes out two nodes. -/
def Careful (s : Server) (p : Packet) : Prop :=
  ¬p.Dropped → p.hlen = 6 ∧
    (p.msgType = some 1 → dhcpClientFindByMac s.nodeList p.chaddr = none →
      ∀ ip ∈ p.requestedIp, dhcpClientFindByIp s.nodeList ip = none) ∧
    (p.msgType = some 7 → ReleasesFirst p.chaddr s.nodeList)

instance (s : Server) (p : Packet) : Decidable (Careful s p) :=
  have : Decidable (∀ ip ∈ p.requestedIp, dhcpClientFindByIp s.nodeList ip = none) :=
    Option.decidableForallMem _
  inferInstanceAs (Decidable (¬p.Dropped → _))

/-- An address is in the range of the server. -/
def Server.InRange (s : Server) (ip : UInt32) : Prop := s.startIp ≤ ip ∧ ip ≤ s.endIp

/-- The leases are unique and in range. -/
structure Good (startIp endIp : UInt32) (net : Net) : Prop where
  /-- The range. -/
  range : net.server.startIp = startIp ∧ net.server.endIp = endIp
  /-- The cursor is in range. -/
  current : net.server.InRange net.server.current
  /-- The leases are in range. -/
  leases : ∀ node ∈ net.server.nodeList, net.server.InRange node.ipaddr
  /-- No address is leased twice. -/
  nodup : (net.server.nodeList.map Node.ipaddr).Nodup
  /-- Hardware addresses have six bytes. -/
  macs : ∀ node ∈ net.server.nodeList, node.chaddr.length = 6
  /-- Whoever holds an address has a lease. -/
  holds : ∀ h ∈ net.holds, (⟨h.1, h.2⟩ : Node) ∈ net.server.nodeList

section Keeps

variable {startIp endIp : UInt32} {net : Net} {p : Packet}

variable {current : UInt32} {nodeList : List Node} {node : Node} {chaddr : List UInt8}

theorem nextAddr_inRange (hle : startIp ≤ endIp) (hend : endIp ≠ 0xFFFFFFFF)
    (h : startIp ≤ current ∧ current ≤ endIp) :
    startIp ≤ nextAddr startIp endIp current ∧ nextAddr startIp endIp current ≤ endIp := by
  unfold nextAddr
  split_ifs with hover
  · exact ⟨UInt32.le_refl startIp, hle⟩
  · rw [UInt32.lt_iff_toNat_lt, UInt32.toNat_add] at hover
    rw [Ne, ← UInt32.toNat_inj] at hend
    simp only [UInt32.le_iff_toNat_le, UInt32.toNat_add] at h hle ⊢
    have hlt := endIp.toNat_lt
    have hone : (1 : UInt32).toNat = 1 := rfl
    have hmax : (0xFFFFFFFF : UInt32).toNat = 2^32-1 := rfl
    omega

/-- From a place in range the cursor stays in range. -/
theorem iterate_inRange (hle : startIp ≤ endIp) (hend : endIp ≠ 0xFFFFFFFF)
    (h : startIp ≤ current ∧ current ≤ endIp) (k : ℕ) :
    startIp ≤ (nextAddr startIp endIp)^[k] current ∧
      (nextAddr startIp endIp)^[k] current ≤ endIp := by
  induction k with
  | zero => exact h
  | succ k ih =>
    rw [Function.iterate_succ_apply']
    exact nextAddr_inRange hle hend ih

/-- What the search finds is free, and the cursor came to it. -/
theorem allocAgain_reached : ∀ {fuel : ℕ} {current ip : UInt32},
    dhcpAllocAgain nodeList startIp endIp fuel current = some ip →
    dhcpClientFindByIp nodeList ip = none ∧ ∃ k, (nextAddr startIp endIp)^[k] current = ip
  | 0, _, _, h => by cases h
  | fuel+1, current, ip, h => by
    rw [dhcpAllocAgain] at h
    cases hfind : dhcpClientFindByIp nodeList current with
    | none =>
      rw [hfind] at h
      cases h
      exact ⟨hfind, 0, rfl⟩
    | some node =>
      rw [hfind] at h
      rcases allocAgain_reached h with ⟨hfree, k, hk⟩
      exact ⟨hfree, k+1, hk⟩

/-- The address that is found is in range and not leased. -/
theorem allocAgain_free {fuel : ℕ} {ip : UInt32} (hle : startIp ≤ endIp) (hend : endIp ≠ 0xFFFFFFFF)
    (hcur : startIp ≤ current ∧ current ≤ endIp)
    (h : dhcpAllocAgain nodeList startIp endIp fuel current = some ip) :
    (startIp ≤ ip ∧ ip ≤ endIp) ∧ dhcpClientFindByIp nodeList ip = none := by
  rcases allocAgain_reached h with ⟨hfree, k, rfl⟩
  exact ⟨iterate_inRange hle hend hcur k, hfree⟩

theorem Packet.chaddr_length (p : Packet) : p.chaddr.length = p.hlen := by
  rw [Packet.chaddr, length_map, length_range]

/-- With all six bytes a match is an equality. -/
theorem Node.Matches.eq (h : node.Matches chaddr) (hnode : node.chaddr.length = 6)
    (hlen : chaddr.length = 6) : node.chaddr = chaddr := by
  have htake : node.chaddr.take 6 = chaddr := hlen ▸ h
  rw [← htake, take_of_length_le (Nat.le_of_eq hnode)]

/-- A new node has the hardware address of its packet. -/
theorem Packet.newNode_chaddr (hlen : p.hlen = 6) (ip : UInt32) :
    p.newNode ip = ⟨p.chaddr, ip⟩ := by
  have hchaddr : ((List.range 6).map fun i => if i < p.hlen then p.mem (28+i) else p.heap i) =
      p.chaddr := by
    rw [Packet.chaddr, hlen]
    exact map_congr_left fun i hi => if_pos (List.mem_range.mp hi)
  rw [Packet.newNode, hchaddr]

/-- The holder of a leased address is the client of the lease. -/
theorem Good.holder (h : Good startIp endIp net) (hmem : node ∈ net.server.nodeList)
    (hholds : (chaddr, node.ipaddr) ∈ net.holds) : chaddr = node.chaddr := by
  have hother := h.holds _ hholds
  have heq := inj_on_of_nodup_map h.nodup hother hmem rfl
  exact congrArg Node.chaddr heq

/-- A client whose node is in the list may hold its address. -/
theorem Good.hold (h : Good startIp endIp net) (hmem : node ∈ net.server.nodeList) :
    Good startIp endIp ⟨net.server, (node.chaddr, node.ipaddr) :: net.holds⟩ := by
  refine { h with holds := fun held hheld => ?_ }
  rcases List.mem_cons.mp hheld with rfl | hold
  · exact hmem
  · exact h.holds held hold

/-- The cursor moves to an address in range. -/
theorem Good.moveCurrent (h : Good startIp endIp net) (hcur : startIp ≤ current ∧ current ≤ endIp) :
    Good startIp endIp ⟨{ net.server with current := current }, net.holds⟩ := by
  rw [← h.range.1, ← h.range.2] at hcur
  exact { h with current := hcur }

/-- A node with an address in range that is not leased. -/
theorem Good.cons (h : Good startIp endIp net) (node : Node)
    (hcur : startIp ≤ node.ipaddr ∧ node.ipaddr ≤ endIp)
    (hfree : dhcpClientFindByIp net.server.nodeList node.ipaddr = none)
    (hmac : node.chaddr.length = 6) :
    Good startIp endIp
      ⟨{ net.server with nodeList := node :: net.server.nodeList, current := node.ipaddr },
        net.holds⟩ := by
  rw [← h.range.1, ← h.range.2] at hcur
  constructor
  · exact h.range
  · exact hcur
  · intro other hother
    rcases List.mem_cons.mp hother with rfl | hold
    · exact hcur
    · exact h.leases other hold
  · refine List.nodup_cons.mpr ⟨fun hmem => ?_, h.nodup⟩
    rcases List.mem_map.mp hmem with ⟨other, hother, heq⟩
    exact findByIp_none hfree hother heq
  · intro other hother
    rcases List.mem_cons.mp hother with rfl | hold
    · exact hmac
    · exact h.macs other hold
  · exact fun held hheld => mem_cons_of_mem node (h.holds held hheld)

/-- A release of the client of the first node, or of nobody. -/
theorem Good.release (h : Good startIp endIp net)
    (hcase : nodeList = net.server.nodeList ∨
      ∃ node, node.chaddr = chaddr ∧ net.server.nodeList = node :: nodeList) :
    Good startIp endIp ⟨{ net.server with nodeList := nodeList },
      net.holds.filter fun held => held.1 ≠ chaddr⟩ := by
  have hsub : ∀ node ∈ nodeList, node ∈ net.server.nodeList := by
    intro node hnode
    rcases hcase with rfl | ⟨first, -, hlist⟩
    · exact hnode
    · rw [hlist]
      exact mem_cons_of_mem first hnode
  constructor
  · exact h.range
  · exact h.current
  · exact fun node hnode => h.leases node (hsub node hnode)
  · have hnodup := h.nodup
    rcases hcase with rfl | ⟨first, -, hlist⟩
    · exact hnodup
    · rw [hlist] at hnodup
      exact (List.nodup_cons.mp hnodup).2
  · exact fun node hnode => h.macs node (hsub node hnode)
  · intro held hheld
    rcases List.mem_filter.mp hheld with ⟨hold, hother⟩
    have hmem := h.holds held hold
    rcases hcase with rfl | ⟨first, hfirst, hlist⟩
    · exact hmem
    · rw [hlist] at hmem
      rcases List.mem_cons.mp hmem with heq | hrest
      · have hchaddr : held.1 = chaddr := (congrArg Node.chaddr heq).trans hfirst
        exact absurd hchaddr (of_decide_eq_true hother)
      · exact hrest

/-- What a careful packet does to good leases, and what is sent. -/
theorem Good.handled (h : Good startIp endIp net) (hle : startIp ≤ endIp)
    (hend : endIp ≠ 0xFFFFFFFF) (hcare : Careful net.server p) {s' : Server} {event : Event}
    (hhandled : Handled net.server p s' event) :
    Good startIp endIp ⟨s', event.update net.holds⟩ ∧
      ∀ {type chaddr ip}, event = .sent type chaddr ip → type ≠ .nak →
        (startIp ≤ ip ∧ ip ≤ endIp) ∧ ∀ other, (other, ip) ∈ net.holds → other = chaddr := by
  cases hhandled with
  | silent => exact ⟨h, nofun⟩
  | @known node haccepted hmem hmac type =>
    have hchaddr : node.chaddr = p.chaddr :=
      hmac.eq (h.macs node hmem) (p.chaddr_length.trans (hcare haccepted).1)
    constructor
    · rw [← hchaddr]
      cases type with
      | offer | ack => exact h.hold hmem
      | nak => exact h
    · intro type chaddr ip hevent _
      cases hevent
      have hrange := h.leases node hmem
      rw [Server.InRange, h.range.1, h.range.2] at hrange
      exact ⟨hrange, fun other hother => (h.holder hmem hother).trans hchaddr⟩
  | leased haccepted htype hmac hip hnode =>
    have hfree := (hcare haccepted).2.1 htype hmac _ hip
    rw [hnode] at hfree
    cases hfree
  | @new fuel current haccepted hfree =>
    have hcur := h.current
    rw [h.range.1, h.range.2] at hfree
    rw [Server.InRange, h.range.1, h.range.2] at hcur
    rcases allocAgain_free hle hend hcur hfree with ⟨hrange, hnone⟩
    have hlen : p.chaddr.length = 6 := p.chaddr_length.trans (hcare haccepted).1
    rw [Packet.newNode_chaddr (hcare haccepted).1]
    have hgood := h.cons ⟨p.chaddr, current⟩ hrange hnone hlen
    constructor
    · exact hgood.hold mem_cons_self
    · intro type chaddr ip hevent _
      cases hevent
      refine ⟨hrange, fun other hother => ?_⟩
      exact absurd rfl (findByIp_none hnone (h.holds _ hother))
  | noMemory hfree =>
    have hcur := h.current
    rw [h.range.1, h.range.2] at hfree
    rw [Server.InRange, h.range.1, h.range.2] at hcur
    exact ⟨h.moveCurrent (allocAgain_free hle hend hcur hfree).1, nofun⟩
  | refused =>
    refine ⟨h, fun hevent htype => ?_⟩
    cases hevent
    exact absurd rfl htype
  | released haccepted htype hloop =>
    have hcareful := hcare haccepted
    refine ⟨h.release ?_, nofun⟩
    rcases releaseLoop_first (hcareful.2.2 htype) hloop with hsame | ⟨node, hmatch, hlist⟩
    · exact .inl hsame
    · have hmem : node ∈ net.server.nodeList := hlist ▸ mem_cons_self
      exact .inr ⟨node, hmatch.eq (h.macs node hmem) (p.chaddr_length.trans hcareful.1), hlist⟩

end Keeps

/-- A packet that is handled is careful. -/
def Net.Careful (net : Net) (r : Recv) : Prop := Dhcp.Careful net.server r.packet

instance (net : Net) (r : Recv) : Decidable (net.Careful r) :=
  inferInstanceAs (Decidable (Dhcp.Careful net.server r.packet))

/-- In every run of careful packets, an address that is offered or acknowledged is in the range
and nobody else holds it. -/
theorem leases_unique {startIp endIp : UInt32} (hle : startIp ≤ endIp)
    (hend : endIp ≠ 0xFFFFFFFF) {packets : List Recv} {net : Net}
    (hcareful : Along Net.step Net.Careful (Net.start startIp endIp) packets)
    (hrun : run Net.step (Net.start startIp endIp) packets = some net)
    {r : Recv} (hnext : net.Careful r) {s' : Server} {type : ReplyType} {chaddr : List UInt8}
    {ip : UInt32}
    (hsent : dhcpServerRecv r.fuel net.server r.packet = some (s', .sent type chaddr ip))
    (htype : type ≠ .nak) :
    (startIp ≤ ip ∧ ip ≤ endIp) ∧ ∀ other, (other, ip) ∈ net.holds → other = chaddr := by
  have hstart : Good startIp endIp (Net.start startIp endIp) :=
    ⟨⟨rfl, rfl⟩, ⟨UInt32.le_refl startIp, hle⟩, nofun, nodup_nil, nofun, nofun⟩
  have hstep : ∀ net r net', Net.Careful net r → Good startIp endIp net →
      net.step r = some net' → Good startIp endIp net' := by
    intro net r net' hcare h hstep
    rcases Option.map_eq_some_iff.mp hstep with ⟨⟨s', event⟩, hrecv, rfl⟩
    exact (h.handled hle hend hcare (recv_handled hrecv)).1
  have hgood := run_keeps hstep hcareful hstart hrun
  exact (hgood.handled hle hend hnext (recv_handled hsent)).2 rfl htype

/-- A packet of a client with a message type and further options. -/
def samplePacket (hlen client type : UInt8) (options : List UInt8) : Recv where
  fuel := 10
  packet :=
    { len := 300
      totLen := 300
      pbufAlloc := true
      mem := fun a =>
        if a < 28 then [1, 1, hlen].getD a 0
        else if a < 44 then client
        else if a < 236 then 0
        else ([0x63, 0x82, 0x53, 0x63, 53, 1, type] ++ options ++ [255]).getD (a-236) 0
      memMalloc := true
      heap := fun _ => 0 }

/-- A discover. -/
def sampleDiscover (client : UInt8) : Recv := samplePacket 6 client 1 []

/-- The second of two clients is offered the second address. -/
theorem leases_unique_sample :
    ∃ net, run Net.step (Net.start 10 20) [sampleDiscover 1] = some net ∧
      ((10 : UInt32) ≤ 11 ∧ (11 : UInt32) ≤ 20) ∧
      ∀ other, (other, 11) ∈ net.holds → other = [2, 2, 2, 2, 2, 2] := by
  have hnet : run Net.step (Net.start 10 20) [sampleDiscover 1] =
      some ⟨⟨[⟨[1, 1, 1, 1, 1, 1], 10⟩], 10, 20, 10⟩, [([1, 1, 1, 1, 1, 1], 10)]⟩ := by
    decide +kernel
  have hsent : dhcpServerRecv 10 ⟨[⟨[1, 1, 1, 1, 1, 1], 10⟩], 10, 20, 10⟩
      (sampleDiscover 2).packet =
      some (⟨[⟨[2, 2, 2, 2, 2, 2], 11⟩, ⟨[1, 1, 1, 1, 1, 1], 10⟩], 10, 20, 11⟩,
        .sent .offer [2, 2, 2, 2, 2, 2] 11) := by
    decide +kernel
  have hunique := leases_unique (by decide) (by decide) (by decide +kernel) hnet
    (r := sampleDiscover 2) (by decide +kernel) hsent (by decide)
  exact ⟨_, hnet, hunique⟩

/-- What a packet gets after others, with the addresses that are held before it. -/
def sampleReply (startIp endIp : UInt32) (before : List Recv) (r : Recv) :
    Option (List (List UInt8 × UInt32) × Event) :=
  (run Net.step (Net.start startIp endIp) before).bind fun net =>
    (dhcpServerRecv r.fuel net.server r.packet).map fun x => (net.holds, x.2)

/-- Addresses that another client holds, or that are not in the range: a client asks for the
address of another one; a packet has no hardware address; a release takes the node of another
client out of the list; the range ends with the last address there is. -/
theorem leases_not_unique :
    sampleReply 10 20 [sampleDiscover 1] (samplePacket 6 2 1 [50, 4, 0, 0, 0, 10]) =
      some ([([1, 1, 1, 1, 1, 1], 10)], .sent .offer [2, 2, 2, 2, 2, 2] 10) ∧
    sampleReply 10 20 [sampleDiscover 1] (samplePacket 0 2 1 []) =
      some ([([1, 1, 1, 1, 1, 1], 10)], .sent .offer [] 10) ∧
    sampleReply 10 12 [sampleDiscover 1, sampleDiscover 2, sampleDiscover 3,
        samplePacket 6 1 7 [], sampleDiscover 4] (sampleDiscover 5) =
      some ([([4, 4, 4, 4, 4, 4], 10), ([3, 3, 3, 3, 3, 3], 12), ([2, 2, 2, 2, 2, 2], 11)],
        .sent .offer [5, 5, 5, 5, 5, 5] 11) ∧
    sampleReply 0xFFFFFFFF 0xFFFFFFFF [sampleDiscover 1] (sampleDiscover 2) =
      some ([([1, 1, 1, 1, 1, 1], 0xFFFFFFFF)], .sent .offer [2, 2, 2, 2, 2, 2] 0) := by
  refine ⟨?_, ?_, ?_, ?_⟩ <;> decide +kernel

end PineVoice.Dhcp
