import PineVoice.Transition

/-!
# The DHCP server of the access point

`dhcp_server_recv` copies a datagram to a buffer of 1500 bytes and handles it there. The lengths
in the options come from the sender and the buffer is larger than the datagram, so what a packet
is to the server is the whole memory from the start of the buffer on. Addresses are in host order.
-/

namespace PineVoice.Dhcp

open Transition

/-- `struct dhcp_client_node`, without the lease time that nothing reads. -/
structure Node where
  /-- `chaddr`, six bytes. -/
  chaddr : List UInt8
  /-- `ipaddr`. -/
  ipaddr : UInt32
deriving DecidableEq

/-- `struct dhcp_server`. -/
structure Server where
  /-- `node_list`. -/
  nodeList : List Node
  /-- `start`. -/
  startIp : UInt32
  /-- `end`. -/
  endIp : UInt32
  /-- `current`. -/
  current : UInt32
deriving DecidableEq

/-- `dhcp_server_start` for an interface without a server. -/
def dhcpServerStart (startIp endIp : UInt32) : Server := ⟨[], startIp, endIp, startIp⟩

/-- A datagram, and what the memory allocations give that are made for it. -/
structure Packet where
  /-- `p->len`. -/
  len : ℕ
  /-- `p->tot_len`. -/
  totLen : ℕ
  /-- `pbuf_alloc` succeeds. -/
  pbufAlloc : Bool
  /-- The memory from `q->payload` on after `pbuf_copy`. -/
  mem : ℕ → UInt8
  /-- `mem_malloc` succeeds. -/
  memMalloc : Bool
  /-- What the `chaddr` of a new node holds before it is set. -/
  heap : ℕ → UInt8

/-- `msg->hlen`. -/
def Packet.hlen (p : Packet) : ℕ := (p.mem 2).toNat

/-- The first `hlen` bytes of `msg->chaddr`. -/
def Packet.chaddr (p : Packet) : List UInt8 := (List.range p.hlen).map fun i => p.mem (28+i)

/-- `q->tot_len`. -/
def bufLen : ℕ := 1500

/-- `DHCP_OPTIONS_OFS`. -/
def optionsOfs : ℕ := 240

/-- The packet is not looked at: it is too short or too long, there is no buffer for it, or
its op code, its cookie or its address length is not accepted. -/
def Packet.Dropped (p : Packet) : Prop :=
  p.len < 44 ∨ p.pbufAlloc = false ∨ bufLen < p.totLen ∨ p.mem 0 ≠ 1 ∨
    [p.mem 236, p.mem 237, p.mem 238, p.mem 239] ≠ [0x63, 0x82, 0x53, 0x63] ∨ 6 < p.hlen

instance (p : Packet) : Decidable p.Dropped :=
  inferInstanceAs (Decidable (_ ∨ _))

/-- `dhcp_server_option_find` with a bound on its iterations, from `buf` on. -/
def dhcpServerOptionFind (mem : ℕ → UInt8) (bufEnd : ℕ) (option : UInt8) :
    ℕ → ℕ → Option (Option ℕ)
  | 0, _ => none
  | fuel+1, buf =>
    if buf < bufEnd ∧ mem buf ≠ 255 then
      if mem buf = option then some (some buf)
      else dhcpServerOptionFind mem bufEnd option fuel (buf+((mem (buf+1)).toNat+2))
    else some none

/-- `memcmp(node->chaddr, msg->chaddr, msg->hlen) == 0`. -/
def Node.Matches (chaddr : List UInt8) (node : Node) : Prop :=
  node.chaddr.take chaddr.length = chaddr

instance (chaddr : List UInt8) (node : Node) : Decidable (node.Matches chaddr) :=
  inferInstanceAs (Decidable (_ = _))

/-- `dhcp_client_find_by_mac`. -/
def dhcpClientFindByMac (nodeList : List Node) (chaddr : List UInt8) : Option Node :=
  nodeList.find? fun node => node.Matches chaddr

/-- `dhcp_client_find_by_ip`. -/
def dhcpClientFindByIp (nodeList : List Node) (ip : UInt32) : Option Node :=
  nodeList.find? fun node => node.ipaddr = ip

/-- The address in the four bytes of an option. -/
def ipAt (mem : ℕ → UInt8) (pos : ℕ) : UInt32 :=
  UInt32.ofNat ((((mem pos).toNat*256+(mem (pos+1)).toNat)*256+(mem (pos+2)).toNat)*256+
    (mem (pos+3)).toNat)

/-- An option of a packet. -/
def Packet.findOption (p : Packet) (fuel : ℕ) (option : UInt8) : Option (Option ℕ) :=
  dhcpServerOptionFind p.mem bufLen option fuel optionsOfs

/-- `dhcp_client_find`. -/
def dhcpClientFind (fuel : ℕ) (s : Server) (p : Packet) : Option (Option Node) :=
  match dhcpClientFindByMac s.nodeList p.chaddr with
  | some node => some (some node)
  | none =>
    (p.findOption fuel 50).map fun opt =>
      match opt with
      | none => none
      | some opt =>
        match dhcpClientFindByIp s.nodeList (ipAt p.mem (opt+2)) with
        | some node => if node.Matches p.chaddr then some node else none
        | none => none

/-- The address that is tried after a leased one. -/
def nextAddr (startIp endIp current : UInt32) : UInt32 :=
  if endIp < current+1 then startIp else current+1

/-- The loop `dhcp_alloc_again`, with a bound on its iterations. -/
def dhcpAllocAgain (nodeList : List Node) (startIp endIp : UInt32) : ℕ → UInt32 → Option UInt32
  | 0, _ => none
  | fuel+1, current =>
    match dhcpClientFindByIp nodeList current with
    | some _ => dhcpAllocAgain nodeList startIp endIp fuel (nextAddr startIp endIp current)
    | none => some current

/-- The node that is set up for a packet; only `hlen` bytes of its `chaddr` are set. -/
def Packet.newNode (p : Packet) (ipaddr : UInt32) : Node :=
  ⟨(List.range 6).map fun i => if i < p.hlen then p.mem (28+i) else p.heap i, ipaddr⟩

/-- `dhcp_client_alloc` from `dhcp_alloc_again` on. -/
def dhcpClientNew (fuel : ℕ) (s : Server) (p : Packet) : Option (Server × Option Node) :=
  (dhcpAllocAgain s.nodeList s.startIp s.endIp fuel s.current).map fun current =>
    if p.memMalloc then
      ({ s with nodeList := p.newNode current :: s.nodeList, current := current },
        some (p.newNode current))
    else ({ s with current := current }, none)

/-- `dhcp_client_alloc`. -/
def dhcpClientAlloc (fuel : ℕ) (s : Server) (p : Packet) : Option (Server × Option Node) :=
  match dhcpClientFindByMac s.nodeList p.chaddr with
  | some node => some (s, some node)
  | none =>
    (p.findOption fuel 50).bind fun opt =>
      match opt with
      | none => dhcpClientNew fuel s p
      | some opt =>
        match dhcpClientFindByIp s.nodeList (ipAt p.mem (opt+2)) with
        | some node => some (s, some node)
        | none => dhcpClientNew fuel s p

/-- The loop of a release. The list up to `node_prev` comes first, then the node between
`node_prev` and `node`, then the list from `node` on. A node that does not match is skipped
together with the next one, whose `next` is read even if there is none. -/
def releaseLoop (chaddr : List UInt8) : List Node → List Node → List Node → Option (List Node)
  | upTo, between, [] => some (upTo ++ between)
  | upTo, _, [node] => if node.Matches chaddr then some upTo else none
  | upTo, between, node :: other :: rest =>
    if node.Matches chaddr then some (upTo ++ other :: rest)
    else releaseLoop chaddr (upTo ++ between ++ [node]) [other] rest

/-- The replies. -/
inductive ReplyType where
  | offer
  | ack
  | nak
deriving DecidableEq

/-- What comes of a packet. -/
inductive Event where
  /-- Nothing. -/
  | silent
  /-- A reply with an address. -/
  | sent (type : ReplyType) (chaddr : List UInt8) (yiaddr : UInt32)
  /-- A release. -/
  | released (chaddr : List UInt8)
deriving DecidableEq

/-- `dhcp_server_recv` with a bound on the iterations of its loops; nothing if the bound is
reached or a null pointer is followed. -/
def dhcpServerRecv (fuel : ℕ) (s : Server) (p : Packet) : Option (Server × Event) :=
  if p.Dropped then some (s, .silent)
  else
    (p.findOption fuel 53).bind fun opt =>
      match opt with
      | none => some (s, .silent)
      | some opt =>
        if p.mem (opt+2) = 1 then
          (dhcpClientAlloc fuel s p).map fun r =>
            match r.2 with
            | none => (r.1, .silent)
            | some node => (r.1, .sent .offer p.chaddr node.ipaddr)
        else if p.mem (opt+2) = 3 then
          (dhcpClientFind fuel s p).map fun node =>
            match node with
            | none => (s, .sent .nak p.chaddr 0)
            | some node => (s, .sent .ack p.chaddr node.ipaddr)
        else if p.mem (opt+2) = 7 then
          (releaseLoop p.chaddr [] [] s.nodeList).map fun nodeList =>
            ({ s with nodeList := nodeList }, .released p.chaddr)
        else some (s, .silent)

/-- The server, and which address was sent to whom and not released. -/
structure Net where
  /-- The server. -/
  server : Server
  /-- Hardware addresses and the addresses they hold. -/
  holds : List (List UInt8 × UInt32)
deriving DecidableEq

/-- Who holds which address after an event. -/
def Event.update (holds : List (List UInt8 × UInt32)) : Event → List (List UInt8 × UInt32)
  | .silent | .sent .nak _ _ => holds
  | .sent .offer chaddr ip | .sent .ack chaddr ip => (chaddr, ip) :: holds
  | .released chaddr => holds.filter fun h => h.1 ≠ chaddr

/-- A packet and the iterations it takes at most. -/
structure Recv where
  /-- The bound. -/
  fuel : ℕ
  /-- The packet. -/
  packet : Packet

/-- A packet is handled. -/
def Net.step (net : Net) (r : Recv) : Option Net :=
  (dhcpServerRecv r.fuel net.server r.packet).map fun x => ⟨x.1, x.2.update net.holds⟩

/-- A new server. -/
def Net.start (startIp endIp : UInt32) : Net := ⟨dhcpServerStart startIp endIp, []⟩

end PineVoice.Dhcp
