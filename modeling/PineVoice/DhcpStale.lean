import PineVoice.Circular
import PineVoice.DhcpOutcome

/-!
# What a DHCP packet is to the server

`dhcp_server_recv` scans the options in 1500 bytes of a fresh buffer, of which only the first
`tot_len` come from the network. Two runs for the same datagram agree on these bytes and on which
allocations succeed. They have the same outcome exactly if the scans end within the datagram, or
what lies behind it is not looked at.
-/

namespace PineVoice.Dhcp

open Function Circular List Option

section Datagrams

/-- What is the same in two runs: the datagram and which allocations succeed. -/
structure Datagram where
  /-- `p->len`. -/
  len : ℕ
  /-- The `p->tot_len` bytes. -/
  bytes : List UInt8
  /-- The first buffer of a chain is not longer than the chain. -/
  len_le : len ≤ bytes.length
  /-- `pbuf_alloc` succeeds. -/
  pbufAlloc : Bool
  /-- `mem_malloc` succeeds. -/
  memMalloc : Bool

/-- The buffer after `pbuf_copy`, with what was in it before behind the datagram. -/
def Datagram.mem (d : Datagram) (stale : ℕ → UInt8) (i : ℕ) : UInt8 := (d.bytes[i]?).getD (stale i)

/-- The packet that the server handles. -/
def Datagram.packet (d : Datagram) (stale heap : ℕ → UInt8) : Packet :=
  ⟨d.len, d.bytes.length, d.pbufAlloc, d.mem stale, d.memMalloc, heap⟩

variable {d : Datagram} {stale stale' heap heap' : ℕ → UInt8}

variable {i : ℕ}

theorem Datagram.mem_of_lt (hi : i < d.bytes.length) (stale stale' : ℕ → UInt8) :
    d.mem stale i = d.mem stale' i := by
  rw [Datagram.mem, Datagram.mem, getElem?_eq_getElem hi]
  rfl

theorem Datagram.mem_of_ge (hi : d.bytes.length ≤ i) : d.mem stale i = stale i := by
  rw [Datagram.mem, getElem?_eq_none hi]
  rfl

theorem Datagram.mem_of_eq {b : UInt8} (h : d.bytes[i]? = some b) : d.mem stale i = b := by
  rw [Datagram.mem, h]
  rfl

/-- Memory that holds the cookie and then these bytes. -/
def behind (bytes : List UInt8) : ℕ → UInt8 :=
  copy (fun _ => 0) 236 ([0x63, 0x82, 0x53, 0x63] ++ bytes)

/-- The datagram is dropped even if the cookie follows it. -/
def Datagram.Rejected (d : Datagram) : Prop := (d.packet (behind []) fun _ => 0).Dropped

instance (d : Datagram) : Decidable d.Rejected := inferInstanceAs (Decidable (Packet.Dropped _))

/-- Whether a packet is dropped depends on its fixed part and on the cookie. -/
theorem Datagram.dropped_congr
    (hmem : ∀ i, 236 ≤ i → i < 240 → d.mem stale i = d.mem stale' i) :
    (d.packet stale heap).Dropped ↔ (d.packet stale' heap').Dropped := by
  have hlen := d.len_le
  by_cases hshort : d.len < 44
  · exact iff_of_true (.inl hshort) (.inl hshort)
  have hknown : ∀ i < 44, d.mem stale i = d.mem stale' i :=
    fun i hi => d.mem_of_lt (by omega) _ _
  simp [Packet.Dropped, Packet.hlen, Datagram.packet, hknown, hmem]

/-- If the cookie behind the datagram is right, it is dropped only if it is rejected. -/
theorem Datagram.dropped_iff (hmem : ∀ i, 236 ≤ i → i < 240 → d.bytes.length ≤ i →
    stale i = behind [] i) : (d.packet stale heap).Dropped ↔ d.Rejected := by
  refine d.dropped_congr fun i hfirst hlast => ?_
  rcases Nat.lt_or_ge i d.bytes.length with hlt | hge
  · exact d.mem_of_lt hlt _ _
  · rw [d.mem_of_ge hge, d.mem_of_ge hge, hmem i hfirst hlast hge]

/-- Then it is dropped whatever follows it. -/
theorem Datagram.Rejected.dropped (h : d.Rejected) : (d.packet stale heap).Dropped := by
  by_contra hnot
  refine hnot ((d.dropped_iff fun i hfirst hlast hge => ?_).mpr h)
  simp only [Packet.Dropped, not_or, not_not, List.cons.injEq, and_true] at hnot
  obtain ⟨-, -, -, -, ⟨h0, h1, h2, h3⟩, -⟩ := hnot
  rw [← (d.mem_of_ge hge : d.mem stale i = stale i)]
  obtain rfl | rfl | rfl | rfl : i = 236 ∨ i = 237 ∨ i = 238 ∨ i = 239 := by omega
  · exact h0
  · exact h1
  · exact h2
  · exact h3

/-- What a datagram that is not rejected has. -/
structure Datagram.Accepted (d : Datagram) : Prop where
  /-- The fixed part is there. -/
  len : 44 ≤ d.bytes.length
  /-- The whole datagram fits. -/
  total : d.bytes.length ≤ bufLen
  /-- The hardware address fits. -/
  hlen : ∀ stale, (d.mem stale 2).toNat ≤ 6
  /-- It is handled if the cookie is in the buffer. -/
  handled : ∀ stale heap, (∀ i, 236 ≤ i → i < 240 → d.bytes.length ≤ i → stale i = behind [] i) →
    ¬(d.packet stale heap).Dropped

theorem Datagram.accepted (h : ¬d.Rejected) : d.Accepted := by
  have hle := d.len_le
  have hhandled : ∀ stale heap, (∀ i, 236 ≤ i → i < 240 → d.bytes.length ≤ i →
      stale i = behind [] i) → ¬(d.packet stale heap).Dropped :=
    fun stale heap hstale => (d.dropped_iff hstale).not.mpr h
  rw [Datagram.Rejected, Packet.Dropped] at h
  simp only [not_or] at h
  obtain ⟨hlen, -, htotal, -, -, hhlen⟩ := h
  have hlen' : 44 ≤ d.len := Nat.not_lt.mp hlen
  refine ⟨by omega, Nat.not_lt.mp htotal, fun stale => ?_, hhandled⟩
  rw [d.mem_of_lt (by omega) stale (behind [])]
  exact Nat.not_lt.mp hhlen

/-- It is handled if the options start within it. -/
theorem Datagram.Accepted.not_dropped (h : d.Accepted) (hopts : optionsOfs ≤ d.bytes.length)
    (stale heap : ℕ → UInt8) : ¬(d.packet stale heap).Dropped :=
  h.handled stale heap fun i _ hlast hge => by rw [optionsOfs] at hopts; omega

theorem Datagram.Accepted.mem (h : d.Accepted) (i : ℕ) (hi : i < 44) (stale stale' : ℕ → UInt8) :
    d.mem stale i = d.mem stale' i :=
  d.mem_of_lt (lt_of_lt_of_le hi h.len) _ _

/-- The hardware address is in the datagram. -/
theorem Datagram.Accepted.chaddr (h : d.Accepted) (stale stale' heap heap' : ℕ → UInt8) :
    (d.packet stale heap).chaddr = (d.packet stale' heap').chaddr := by
  have hsix := h.hlen stale
  have hhlen : (d.packet stale heap).hlen = (d.packet stale' heap').hlen :=
    congrArg UInt8.toNat (h.mem 2 (by omega) _ _)
  rw [Packet.chaddr, Packet.chaddr, ← hhlen]
  refine map_congr_left fun i hi => h.mem (28+i) ?_ _ _
  have hlt : i < (d.mem stale 2).toNat := List.mem_range.mp hi
  omega

/-- A new node with all six bytes of a hardware address is in the datagram. -/
theorem Datagram.Accepted.newNode (h : d.Accepted) (hsix : (d.mem stale 2).toNat = 6)
    (ip : UInt32) : (d.packet stale heap).newNode ip = (d.packet stale' heap').newNode ip := by
  have hhlen : (d.packet stale' heap').hlen = 6 := by
    rw [← hsix]
    exact congrArg UInt8.toNat (h.mem 2 (by omega) _ _)
  have hhlen' : (d.packet stale heap).hlen = 6 := hsix
  rw [Packet.newNode, Packet.newNode, hhlen, hhlen']
  congr 1
  refine map_congr_left fun i hi => ?_
  have hi := List.mem_range.mp hi
  rw [if_pos hi, if_pos hi]
  exact h.mem (28+i) (by omega) _ _

/-- A shorter one leaves bytes of the node as they were. -/
theorem Datagram.newNode_ne (hshort : (d.mem stale 2).toNat < 6) (ip : UInt32) :
    (d.packet stale fun _ => 0).newNode ip ≠ (d.packet stale fun _ => 1).newNode ip := by
  intro heq
  have hhlen : ∀ heap, (d.packet stale heap).hlen = (d.mem stale 2).toNat := fun _ => rfl
  have hbyte := congrArg (fun node : Node => node.chaddr[(d.mem stale 2).toNat]?) heq
  simp only [Packet.newNode, hhlen, getElem?_map, getElem?_range hshort, map_some,
    Nat.lt_irrefl] at hbyte
  have hheap : (0 : UInt8) = 1 := Option.some.inj hbyte
  exact absurd hheap (by decide)

end Datagrams

section Scans

/-- What a scan of the options sees in the bytes of a datagram. -/
inductive Scan where
  /-- The option is not there, whatever follows. -/
  | absent
  /-- The scan goes on behind the datagram. -/
  | leaves
  /-- The option is there. -/
  | found (opt : ℕ)
deriving DecidableEq

/-- The scan for an option in known bytes, with a bound on its iterations. -/
def scanFrom (bytes : List UInt8) (code : UInt8) : ℕ → ℕ → Scan
  | 0, _ => .absent
  | fuel+1, buf =>
    if buf < bufLen then
      match bytes[buf]? with
      | none => .leaves
      | some b =>
        if b = 255 then .absent
        else if b = code then .found buf
        else
          match bytes[buf+1]? with
          | none => if buf+2 < bufLen then .leaves else .absent
          | some len => scanFrom bytes code fuel (buf+(len.toNat+2))
    else .absent

/-- The scan of a whole datagram. -/
def Datagram.scan (d : Datagram) (code : UInt8) : Scan :=
  scanFrom d.bytes code (bufLen+1) optionsOfs

/-- What a scan of known bytes says about the scan of the buffer, which depends on what lies
behind the datagram. -/
def Scan.Tells (d : Datagram) (code : UInt8) (find : (ℕ → UInt8) → Option (Option ℕ)) : Scan → Prop
  | .absent => ∀ stale, find stale = some none
  | .found opt => opt < d.bytes.length ∧ ∀ stale, find stale = some (some opt)
  | .leaves => ∃ pos fuel, d.bytes.length ≤ pos ∧ pos < bufLen ∧ bufLen ≤ fuel+pos ∧
      ∀ stale, pos = d.bytes.length ∨ stale d.bytes.length = 0 →
        find stale = dhcpServerOptionFind (d.mem stale) bufLen code (fuel+1) pos

variable {d : Datagram} {code : UInt8}

/-- The search passes an option with another code. -/
theorem optionFind_skip {mem : ℕ → UInt8} {fuel buf : ℕ} (hbuf : buf < bufLen)
    (hend : mem buf ≠ 255) (hopt : mem buf ≠ code) :
    dhcpServerOptionFind mem bufLen code (fuel+1) buf =
      dhcpServerOptionFind mem bufLen code fuel (buf+((mem (buf+1)).toNat+2)) := by
  rw [dhcpServerOptionFind, if_pos ⟨hbuf, hend⟩, if_neg hopt]

/-- The scan of known bytes follows the scan of the buffer. -/
theorem scanFrom_tells (n buf : ℕ) (hfuel : bufLen < n+buf) (hn : 0 < n) :
    (scanFrom d.bytes code n buf).Tells d code
      fun stale => dhcpServerOptionFind (d.mem stale) bufLen code n buf := by
  fun_induction scanFrom d.bytes code n buf with
  | case1 => omega
  | case2 fuel buf hbuf hb =>
    exact ⟨buf, fuel, List.getElem?_eq_none_iff.mp hb, hbuf, by omega, fun stale _ => rfl⟩
  | case3 fuel buf hbuf hb =>
    intro stale
    simp [dhcpServerOptionFind, d.mem_of_eq hb]
  | case4 fuel buf hbuf hb hend =>
    refine ⟨(List.getElem?_eq_some_iff.mp hb).1, fun stale => ?_⟩
    simp [dhcpServerOptionFind, d.mem_of_eq hb, hbuf, hend]
  | case5 fuel buf hbuf b hb hend hopt hlen hroom =>
    have hlt := (List.getElem?_eq_some_iff.mp hb).1
    have hge := List.getElem?_eq_none_iff.mp hlen
    obtain ⟨fuel, rfl⟩ : ∃ k, fuel = k+1 := ⟨fuel-1, by omega⟩
    refine ⟨buf+2, fuel, by omega, hroom, by omega, fun stale hstale => ?_⟩
    have hlast : d.bytes.length = buf+1 := by omega
    have hzero : stale (buf+1) = 0 := hlast ▸ hstale.resolve_left (by omega)
    rw [← (d.mem_of_eq hb : d.mem stale buf = b)] at hend hopt
    refine (optionFind_skip hbuf hend hopt).trans ?_
    rw [d.mem_of_ge hge, hzero]
    rfl
  | case6 fuel buf hbuf b hb hend hopt hlen hroom =>
    obtain ⟨fuel, rfl⟩ : ∃ k, fuel = k+1 := ⟨fuel-1, by omega⟩
    intro stale
    have hover : ¬buf+((d.mem stale (buf+1)).toNat+2) < bufLen := by omega
    simp [dhcpServerOptionFind, d.mem_of_eq hb, hopt, hover]
  | case7 fuel buf hbuf b hb hend hopt len hlen ih =>
    have hstep : ∀ stale, dhcpServerOptionFind (d.mem stale) bufLen code (fuel+1) buf =
        dhcpServerOptionFind (d.mem stale) bufLen code fuel (buf+(len.toNat+2)) := fun stale => by
      rw [← (d.mem_of_eq hb : d.mem stale buf = b)] at hend hopt
      rw [optionFind_skip hbuf hend hopt, d.mem_of_eq hlen]
    simp only [hstep]
    exact ih (by omega) (by omega)
  | case8 fuel buf hbuf =>
    intro stale
    simp [dhcpServerOptionFind, hbuf]

/-- The scan of the datagram and the option that the server finds. -/
theorem Datagram.scan_tells (d : Datagram) (code : UInt8) :
    (d.scan code).Tells d code fun stale =>
      dhcpServerOptionFind (d.mem stale) bufLen code (bufLen+1) optionsOfs :=
  scanFrom_tells (bufLen+1) optionsOfs (by decide) (by decide)

theorem Datagram.option_of_absent (h : d.scan code = .absent) (stale heap : ℕ → UInt8) :
    (d.packet stale heap).option code = none := by
  have htells := d.scan_tells code
  rw [h] at htells
  exact congrArg Option.join (htells stale)

theorem Datagram.option_of_found {opt : ℕ} (h : d.scan code = .found opt) :
    opt < d.bytes.length ∧ ∀ stale heap, (d.packet stale heap).option code = some opt := by
  have htells := d.scan_tells code
  rw [h] at htells
  exact ⟨htells.1, fun stale heap => congrArg Option.join (htells.2 stale)⟩

/-- Behind the datagram the scan can find any byte, followed by a length of zero and any value. -/
theorem Datagram.exists_find (h : d.scan code = .leaves) (b : UInt8) (value : List UInt8) :
    ∃ stale pos fuel, pos < bufLen ∧ d.mem stale pos = b ∧
      (∀ heap, (d.packet stale heap).option code =
        (dhcpServerOptionFind (d.mem stale) bufLen code (fuel+1) pos).join) ∧
      ∀ (k : ℕ) (hk : k < value.length), d.mem stale (pos+2+k) = value[k] := by
  have htells := d.scan_tells code
  rw [h] at htells
  obtain ⟨pos, fuel, hpos, hlt, -, hfind⟩ := htells
  refine ⟨copy (fun _ => 0) pos (b :: 0 :: value), pos, fuel, hlt, ?_, fun heap =>
    congrArg Option.join (hfind _ ?_), fun k hk => ?_⟩
  · rw [d.mem_of_ge hpos, copy_cons, copy_outside (.inl (Nat.lt_succ_self pos)), update_self]
  · rcases Nat.eq_or_lt_of_le hpos with heq | hlt
    · exact .inl heq.symm
    · exact .inr (copy_outside (.inl hlt))
  · rw [d.mem_of_ge (by omega), copy_cons, copy_cons, copy_inside hk]

/-- So it can find its end. -/
theorem Datagram.exists_option_none (h : d.scan code = .leaves) :
    ∃ stale, ∀ heap, (d.packet stale heap).option code = none := by
  obtain ⟨stale, pos, fuel, -, hend, hopt, -⟩ := d.exists_find h 255 []
  exact ⟨stale, fun heap => by simp [hopt, dhcpServerOptionFind, hend]⟩

/-- And it can find the option, with any value. -/
theorem Datagram.exists_option_some (h : d.scan code = .leaves) (hcode : code ≠ 255)
    (value : List UInt8) : ∃ stale opt, (∀ heap, (d.packet stale heap).option code = some opt) ∧
      ∀ (k : ℕ) (hk : k < value.length), d.mem stale (opt+2+k) = value[k] := by
  obtain ⟨stale, pos, fuel, hlt, hfound, hopt, hvalue⟩ := d.exists_find h code value
  exact ⟨stale, pos, fun heap => by simp [hopt, dhcpServerOptionFind, hlt, hfound, hcode], hvalue⟩

end Scans

section Addresses

theorem ipAt_toNat (mem : ℕ → UInt8) (pos : ℕ) : (ipAt mem pos).toNat =
    (((mem pos).toNat*256+(mem (pos+1)).toNat)*256+(mem (pos+2)).toNat)*256+
      (mem (pos+3)).toNat := by
  have h0 := (mem pos).toNat_lt
  have h1 := (mem (pos+1)).toNat_lt
  have h2 := (mem (pos+2)).toNat_lt
  have h3 := (mem (pos+3)).toNat_lt
  exact UInt32.toNat_ofNat_of_lt' (by show _ < 2^32; omega)

variable {mem : ℕ → UInt8} {pos : ℕ} {ip : UInt32}

/-- The last byte of an option is the last byte of the address. -/
theorem ipAt_last {mem' : ℕ → UInt8} (h : ipAt mem pos = ipAt mem' pos) :
    mem (pos+3) = mem' (pos+3) := by
  have hnat := congrArg UInt32.toNat h
  have hlt := (mem (pos+3)).toNat_lt
  have hlt' := (mem' (pos+3)).toNat_lt
  rw [ipAt_toNat, ipAt_toNat] at hnat
  exact UInt8.toNat_inj.mp (by omega)

/-- The four bytes of an address. -/
def ipBytes (ip : UInt32) : List UInt8 :=
  [UInt8.ofNat (ip.toNat/2^24), UInt8.ofNat (ip.toNat/2^16), UInt8.ofNat (ip.toNat/2^8),
    UInt8.ofNat ip.toNat]

theorem ipAt_ipBytes (h : ∀ (k : ℕ) (hk : k < (ipBytes ip).length), mem (pos+k) = (ipBytes ip)[k]) :
    ipAt mem pos = ip := by
  have hlt := ip.toNat_lt
  have hlen : (ipBytes ip).length = 4 := rfl
  have h0 : mem pos = UInt8.ofNat (ip.toNat/2^24) := h 0 (by rw [hlen]; omega)
  have h1 : mem (pos+1) = UInt8.ofNat (ip.toNat/2^16) := h 1 (by rw [hlen]; omega)
  have h2 : mem (pos+2) = UInt8.ofNat (ip.toNat/2^8) := h 2 (by rw [hlen]; omega)
  have h3 : mem (pos+3) = UInt8.ofNat ip.toNat := h 3 (by rw [hlen]; omega)
  rw [← UInt32.toNat_inj, ipAt_toNat, h0, h1, h2, h3]
  simp only [UInt8.toNat_ofNat']
  omega

theorem findByIp_isSome {nodeList : List Node} {node : Node} (hmem : node ∈ nodeList)
    (h : node.ipaddr = ip) : ∃ found, dhcpClientFindByIp nodeList ip = some found := by
  cases hfind : dhcpClientFindByIp nodeList ip with
  | some found => exact ⟨found, rfl⟩
  | none => exact absurd h (findByIp_none hfind hmem)

end Addresses

/-- The datagram in a buffer of zeros. -/
def Datagram.alone (d : Datagram) : Packet := d.packet (fun _ => 0) fun _ => 0

/-- Whatever follows the datagram, the address it asks for is not leased. -/
def Datagram.AsksNoLease (s : Server) (d : Datagram) : Prop :=
  match d.scan 50 with
  | .absent => True
  | .leaves => s.nodeList = []
  | .found opt => ∀ node ∈ s.nodeList, ∀ stale, ipAt (d.mem stale) (opt+2) ≠ node.ipaddr

/-- A new node is the same in all runs: its hardware address is whole, or there is no memory for
it, or no address. -/
def Datagram.NewDetermined (s : Server) (d : Datagram) : Prop :=
  d.alone.hlen = 6 ∨ d.memMalloc = false ∨ ∀ ip, ¬s.Finds ip

/-- A discover has the same outcome in all runs: the client has a node, or it asks for a leased
address that is in the datagram, or it gets a new node. -/
def Datagram.OfferDetermined (s : Server) (d : Datagram) : Prop :=
  dhcpClientFindByMac s.nodeList d.alone.chaddr ≠ none ∨
    (∃ opt, d.scan 50 = .found opt ∧ opt+5 < d.bytes.length ∧
      dhcpClientFindByIp s.nodeList (ipAt d.alone.mem (opt+2)) ≠ none) ∨
    d.AsksNoLease s ∧ d.NewDetermined s

/-- The bytes of the datagram decide: it is dropped whatever follows it, or the options start
within it and the scan for the message type ends within it, at its end or at a type that is in
the datagram, and if this is a discover then its outcome is decided as well. -/
def Datagram.Determined (s : Server) (d : Datagram) : Prop :=
  d.Rejected ∨ optionsOfs ≤ d.bytes.length ∧
    (d.scan 53 = .absent ∨ ∃ opt type, d.scan 53 = .found opt ∧ d.bytes[opt+2]? = some type ∧
      (type = 1 → d.OfferDetermined s))

section Determined

variable {s : Server} {d : Datagram} {free : Option UInt32}

variable {p : Packet} {opt : ℕ}

theorem requestedIp_of_option (h : p.option 50 = some opt) :
    p.requestedIp = some (ipAt p.mem (opt+2)) := by
  rw [Packet.requestedIp, h]
  rfl

theorem msgType_of_option (h : p.option 53 = some opt) : p.msgType = some (p.mem (opt+2)) := by
  rw [Packet.msgType, h]
  rfl

/-- No run finds the requested address leased. -/
theorem Datagram.AsksNoLease.bind (h : d.AsksNoLease s) (stale heap : ℕ → UInt8) :
    (d.packet stale heap).requestedIp.bind (dhcpClientFindByIp s.nodeList) = none := by
  unfold Datagram.AsksNoLease at h
  cases hscan : d.scan 50 with
  | absent =>
    rw [Packet.requestedIp, d.option_of_absent hscan]
    rfl
  | leaves =>
    rw [hscan] at h
    rw [show s.nodeList = [] from h]
    cases (d.packet stale heap).requestedIp <;> rfl
  | found opt =>
    rw [hscan] at h
    rw [requestedIp_of_option ((d.option_of_found hscan).2 stale heap)]
    refine List.find?_eq_none.mpr fun node hmem hip => ?_
    exact h node hmem stale (of_decide_eq_true hip).symm

/-- Otherwise some run does. -/
theorem Datagram.exists_lease (h : ¬d.AsksNoLease s) : ∃ stale node,
    ∀ heap, (d.packet stale heap).requestedIp.bind (dhcpClientFindByIp s.nodeList) = some node := by
  unfold Datagram.AsksNoLease at h
  cases hscan : d.scan 50 with
  | absent =>
    rw [hscan] at h
    exact absurd trivial h
  | leaves =>
    rw [hscan] at h
    rcases exists_mem_of_ne_nil _ h with ⟨node, hmem⟩
    rcases d.exists_option_some hscan (by decide) (ipBytes node.ipaddr) with
      ⟨stale, opt, hopt, hvalue⟩
    rcases findByIp_isSome hmem (ipAt_ipBytes hvalue).symm with ⟨found, hfound⟩
    refine ⟨stale, found, fun heap => ?_⟩
    rw [requestedIp_of_option (hopt heap)]
    exact hfound
  | found opt =>
    rw [hscan] at h
    simp only [not_forall, not_not] at h
    rcases h with ⟨node, hmem, stale, hip⟩
    rcases findByIp_isSome hmem hip.symm with ⟨found, hfound⟩
    refine ⟨stale, found, fun heap => ?_⟩
    rw [requestedIp_of_option ((d.option_of_found hscan).2 stale heap)]
    exact hfound

/-- All runs settle alike. -/
def Alike (s : Server) (d : Datagram) (free : Option UInt32) : Prop :=
  ∀ stale heap stale' heap',
    settle s (d.packet stale heap) free = settle s (d.packet stale' heap') free

/-- All runs handle the packet and find this message type. -/
def Typed (d : Datagram) (type : UInt8) : Prop :=
  ∀ stale heap, ¬(d.packet stale heap).Dropped ∧ (d.packet stale heap).msgType = some type

section Offer

theorem Datagram.Accepted.findByMac (hacc : d.Accepted) {found : Option Node}
    (hmac : dhcpClientFindByMac s.nodeList d.alone.chaddr = found) (stale heap : ℕ → UInt8) :
    dhcpClientFindByMac s.nodeList (d.packet stale heap).chaddr = found := by
  rw [← hmac, hacc.chaddr stale (fun _ => 0) heap fun _ => 0]
  rfl

variable (hacc : d.Accepted) (htype : Typed d 1)
  (hmac : dhcpClientFindByMac s.nodeList d.alone.chaddr = none) {stale heap : ℕ → UInt8}
include hacc htype hmac

/-- A run for a client without a node that asks for a leased address. -/
theorem settle_leased {node : Node} (hnode : (d.packet stale heap).requestedIp.bind
    (dhcpClientFindByIp s.nodeList) = some node) :
    settle s (d.packet stale heap) free = some (s.nodeList, some (.offer, node.ipaddr)) :=
  settle_of_leased (htype stale heap).1 (htype stale heap).2 (hacc.findByMac hmac stale heap) hnode

/-- A run for a client without a node that gets a new one. -/
theorem settle_new (hnode : (d.packet stale heap).requestedIp.bind
    (dhcpClientFindByIp s.nodeList) = none) :
    settle s (d.packet stale heap) free = free.map fun ip =>
      if d.memMalloc then ((d.packet stale heap).newNode ip :: s.nodeList, some (.offer, ip))
      else (s.nodeList, none) :=
  settle_of_new (htype stale heap).1 (htype stale heap).2 (hacc.findByMac hmac stale heap) hnode

end Offer

/-- A discover whose outcome is decided. -/
theorem alike_of_offer (hacc : d.Accepted) (htype : Typed d 1)
    (hfree : ∀ ip, free = some ip → s.Finds ip) (h : d.OfferDetermined s) : Alike s d free := by
  intro stale heap stale' heap'
  cases hmac : dhcpClientFindByMac s.nodeList d.alone.chaddr with
  | some node =>
    simp [settle, htype stale heap, htype stale' heap', hacc.findByMac hmac]
  | none =>
    rcases h with h | ⟨opt, hscan, hin, hleased⟩ | ⟨hno, hnew⟩
    · exact absurd hmac h
    · have hip : ∀ stale, ipAt (d.mem stale) (opt+2) = ipAt d.alone.mem (opt+2) := by
        intro stale
        unfold ipAt
        rw [d.mem_of_lt (by omega : opt+2 < _) stale, d.mem_of_lt (by omega : opt+2+1 < _) stale,
          d.mem_of_lt (by omega : opt+2+2 < _) stale, d.mem_of_lt (by omega : opt+2+3 < _) stale]
        rfl
      rcases Option.ne_none_iff_exists'.mp hleased with ⟨node, hnode⟩
      have hbind : ∀ stale heap, (d.packet stale heap).requestedIp.bind
          (dhcpClientFindByIp s.nodeList) = some node := by
        intro stale heap
        rw [requestedIp_of_option ((d.option_of_found hscan).2 stale heap)]
        exact (congrArg _ (hip stale)).trans hnode
      rw [settle_leased hacc htype hmac (hbind _ _), settle_leased hacc htype hmac (hbind _ _)]
    · rw [settle_new hacc htype hmac (hno.bind _ _), settle_new hacc htype hmac (hno.bind _ _)]
      cases hf : free with
      | none => rfl
      | some ip =>
        rcases hnew with hsix | hmem | hnone
        · have hhlen : (d.mem stale 2).toNat = 6 := by
            rw [← hsix]
            exact congrArg UInt8.toNat (hacc.mem 2 (by omega) stale fun _ => 0)
          rw [map_some, map_some, hacc.newNode hhlen ip]
        · simp [hmem]
        · exact absurd (hfree ip hf) (hnone ip)

/-- A datagram whose bytes decide. -/
theorem alike_of_determined (hfree : ∀ ip, free = some ip → s.Finds ip) (h : d.Determined s) :
    Alike s d free := by
  by_cases hrejected : d.Rejected
  · intro stale heap stale' heap'
    rw [settle_of_dropped hrejected.dropped, settle_of_dropped hrejected.dropped]
  have hacc := d.accepted hrejected
  rcases h.resolve_left hrejected with ⟨hopts, hscan⟩
  have hhandled := hacc.not_dropped hopts
  rcases hscan with habsent | ⟨opt, type, hfound, hbyte, hoffer⟩
  · intro stale heap stale' heap'
    have hnone : ∀ stale heap, (d.packet stale heap).msgType = none := by
      intro stale heap
      rw [Packet.msgType, d.option_of_absent habsent]
      rfl
    rw [settle_of_none (hhandled _ _) (hnone _ _), settle_of_none (hhandled _ _) (hnone _ _)]
  · have htype : Typed d type := fun stale heap => ⟨hhandled stale heap, by
      rw [msgType_of_option ((d.option_of_found hfound).2 stale heap)]
      exact congrArg some (d.mem_of_eq hbyte)⟩
    by_cases hdiscover : type = 1
    · exact alike_of_offer hacc (hdiscover ▸ htype) hfree (hoffer hdiscover)
    · intro stale heap stale' heap'
      simp [settle, htype stale heap, htype stale' heap', hdiscover,
        hacc.chaddr stale stale' heap heap']

/-- A discover that all runs settle alike is decided. -/
theorem offer_of_alike (hacc : d.Accepted) (htype : Typed d 1)
    (hfree : (∃ ip, s.Finds ip) → free.isSome) (h : Alike s d free) : d.OfferDetermined s := by
  by_cases hmac : dhcpClientFindByMac s.nodeList d.alone.chaddr = none
  swap
  · exact .inl hmac
  have hclash : ∀ stale node stale',
      (∀ heap, (d.packet stale heap).requestedIp.bind (dhcpClientFindByIp s.nodeList) = some node) →
      (∀ heap, (d.packet stale' heap).requestedIp.bind (dhcpClientFindByIp s.nodeList) ≠ none) := by
    intro stale node stale' hsome heap hnone
    have heq := h stale heap stale' heap
    rw [settle_leased hacc htype hmac (hsome heap), settle_new hacc htype hmac hnone] at heq
    exact settle_new_ne_leased (p := d.packet stale' heap) _ heq.symm _ rfl
  by_cases hno : d.AsksNoLease s
  · refine .inr (.inr ⟨hno, ?_⟩)
    by_contra hnew
    rw [Datagram.NewDetermined] at hnew
    simp only [not_or, not_forall, not_not, Bool.not_eq_false] at hnew
    rcases hnew with ⟨hsix, hmalloc, hfinds⟩
    rcases Option.isSome_iff_exists.mp (hfree hfinds) with ⟨ip, rfl⟩
    have hshort : (d.mem (fun _ => 0) 2).toNat < 6 :=
      lt_of_le_of_ne (hacc.hlen _) hsix
    have heq := h (fun _ => 0) (fun _ => 0) (fun _ => 0) fun _ => 1
    rw [settle_new hacc htype hmac (hno.bind _ _), settle_new hacc htype hmac (hno.bind _ _),
      map_some, map_some, if_pos hmalloc, if_pos hmalloc] at heq
    have hnode := congrArg (fun o : Outcome => o.1.head?) (Option.some.inj heq)
    exact d.newNode_ne hshort ip (Option.some.inj hnode)
  · rcases d.exists_lease hno with ⟨stale, node, hleased⟩
    cases hscan : d.scan 50 with
    | absent =>
      refine absurd ?_ hno
      rw [Datagram.AsksNoLease, hscan]
      trivial
    | leaves =>
      rcases d.exists_option_none hscan with ⟨stale', hnone⟩
      refine absurd ?_ (hclash stale node stale' hleased fun _ => 0)
      rw [Packet.requestedIp, hnone]
      rfl
    | found opt =>
      have hip : ∀ stale heap, (d.packet stale heap).requestedIp =
          some (ipAt (d.mem stale) (opt+2)) :=
        fun stale heap => requestedIp_of_option ((d.option_of_found hscan).2 stale heap)
      rcases Nat.lt_or_ge (opt+5) d.bytes.length with hin | hout
      · refine .inr (.inl ⟨opt, hscan, hin, ?_⟩)
        have hsome := hclash stale node (fun _ => 0) hleased fun _ => 0
        rw [hip] at hsome
        exact hsome
      · exfalso
        have hother := hclash stale node (update stale (opt+5) (stale (opt+5)+1)) hleased
        rcases Option.ne_none_iff_exists'.mp (hother fun _ => 0) with ⟨node', hleased'⟩
        have heq := h stale (fun _ => 0) (update stale (opt+5) (stale (opt+5)+1)) fun _ => 0
        rw [settle_leased hacc htype hmac (hleased fun _ => 0),
          settle_leased hacc htype hmac hleased'] at heq
        have hnode := hleased fun _ => 0
        rw [hip] at hnode hleased'
        have haddr : node.ipaddr = node'.ipaddr := by
          simpa only [Option.some.injEq, Prod.mk.injEq, true_and] using heq
        rw [(findByIp_mem hnode).2, (findByIp_mem hleased').2] at haddr
        have hlast : stale (opt+5) = stale (opt+5)+1 := by
          have hmem := ipAt_last haddr
          rw [d.mem_of_ge (by omega), d.mem_of_ge (by omega), update_self] at hmem
          exact hmem
        have hnat := congrArg UInt8.toNat hlast
        rw [UInt8.toNat_add, show (1 : UInt8).toNat = 1 from rfl] at hnat
        omega

/-- A run without a reply and one that handles a request are not alike. -/
theorem not_alike {stale heap stale' heap' : ℕ → UInt8}
    (hsilent : settle s (d.packet stale heap) free = some (s.nodeList, none))
    (hacc : ¬(d.packet stale' heap').Dropped) (htype : (d.packet stale' heap').msgType = some 3) :
    ¬Alike s d free := by
  intro h
  obtain ⟨r, hsent⟩ := settle_of_request s free hacc htype
  have heq := h stale heap stale' heap'
  rw [hsilent, hsent] at heq
  cases heq

/-- A datagram that all runs settle alike is decided. -/
theorem determined_of_alike (hfree : (∃ ip, s.Finds ip) → free.isSome) (h : Alike s d free) :
    d.Determined s := by
  by_cases hrejected : d.Rejected
  · exact .inl hrejected
  have hacc := d.accepted hrejected
  refine .inr ?_
  rcases Nat.lt_or_ge d.bytes.length optionsOfs with hshort | hopts
  · exfalso
    have hwrong : (d.packet (fun _ => 0) fun _ => 0).Dropped := by
      refine .inr (.inr (.inr (.inr (.inl fun hcookie => ?_))))
      have hlast : d.mem (fun _ => 0) 239 = 0x63 := by
        simp only [List.cons.injEq, and_true] at hcookie
        exact hcookie.2.2.2
      rw [optionsOfs] at hshort
      rw [d.mem_of_ge (by omega)] at hlast
      cases hlast
    have hright : ¬(d.packet (behind [53, 1, 3]) fun _ => 0).Dropped :=
      hacc.handled _ _ fun i _ hlast _ => by
        rw [behind, copy_append]
        exact copy_outside (.inl hlast)
    have hmem : ∀ i, 240 ≤ i → d.mem (behind [53, 1, 3]) i = behind [53, 1, 3] i :=
      fun i hi => d.mem_of_ge (by rw [optionsOfs] at hshort; omega)
    have hoption : (d.packet (behind [53, 1, 3]) fun _ => 0).option 53 = some 240 := by
      have hfind : dhcpServerOptionFind (d.mem (behind [53, 1, 3])) bufLen 53 (bufLen+1) optionsOfs =
          some (some 240) := by
        rw [dhcpServerOptionFind, optionsOfs, hmem 240 (by omega)]
        rfl
      exact congrArg Option.join hfind
    have hrequest : (d.packet (behind [53, 1, 3]) fun _ => 0).msgType = some 3 := by
      rw [msgType_of_option hoption]
      exact congrArg some (hmem 242 (by omega))
    exact not_alike (settle_of_dropped hwrong) hright hrequest h
  · refine ⟨hopts, ?_⟩
    have hhandled := hacc.not_dropped hopts
    cases hscan : d.scan 53 with
    | absent => exact .inl rfl
    | leaves =>
      exfalso
      rcases d.exists_option_none hscan with ⟨stale, hnone⟩
      rcases d.exists_option_some hscan (by decide) [3] with ⟨stale', opt, hsome, hvalue⟩
      have hsilent : (d.packet stale fun _ => 0).msgType = none := by
        rw [Packet.msgType, hnone]
        rfl
      have hrequest : (d.packet stale' fun _ => 0).msgType = some 3 := by
        rw [msgType_of_option (hsome _)]
        exact congrArg some (hvalue 0 (by decide))
      exact not_alike (settle_of_none (hhandled _ _) hsilent) (hhandled _ _) hrequest h
    | found opt =>
      refine .inr ⟨opt, ?_⟩
      have htype : ∀ stale heap, (d.packet stale heap).msgType = some (d.mem stale (opt+2)) :=
        fun stale heap => msgType_of_option ((d.option_of_found hscan).2 stale heap)
      cases hbyte : d.bytes[opt+2]? with
      | none =>
        exfalso
        have hge := List.getElem?_eq_none_iff.mp hbyte
        have hunknown : (d.packet (fun _ => 0) fun _ => 0).msgType = some 0 := by
          rw [htype, d.mem_of_ge hge]
        have hrequest : (d.packet (fun _ => 3) fun _ => 0).msgType = some 3 := by
          rw [htype, d.mem_of_ge hge]
        exact not_alike (settle_of_unknown (hhandled _ _) hunknown) (hhandled _ _) hrequest h
      | some type =>
        refine ⟨type, rfl, rfl, fun hdiscover => ?_⟩
        refine offer_of_alike hacc (fun stale heap => ⟨hhandled stale heap, ?_⟩) hfree h
        rw [htype, d.mem_of_eq hbyte, hdiscover]

end Determined

/-- Two runs for the same datagram, from the same server, have the same leases and the same
reply afterwards, whatever the memory held before, if and only if the datagram decides. -/
theorem recv_independent_of_stale_iff (s : Server) (d : Datagram) :
    (∀ stale heap stale' heap' o,
        Gives s (d.packet stale heap) o ↔ Gives s (d.packet stale' heap') o) ↔
      d.Determined s := by
  rcases exists_free s with ⟨free, hfinds, hsome, rounds, hrounds⟩
  have hgives : ∀ p o, Gives s p o ↔ settle s p free = some o :=
    fun p o => gives_iff_settle hrounds o
  constructor
  · intro h
    refine determined_of_alike hsome fun stale heap stale' heap' => Option.ext fun o => ?_
    rw [← hgives, ← hgives]
    exact h stale heap stale' heap' o
  · intro h stale heap stale' heap' o
    rw [hgives, hgives, alike_of_determined hfinds h stale heap stale' heap']

/-- A datagram that ends with its cookie. -/
def bareDatagram : Datagram where
  len := 240
  bytes := [1, 1, 6] ++ List.replicate 233 0 ++ [0x63, 0x82, 0x53, 0x63]
  len_le := by rw [List.length_append, List.length_append, List.length_replicate]; exact le_refl 240
  pbufAlloc := true
  memMalloc := true

/-- Behind it the buffer holds the end of the options, and nothing is sent, or the rest of an
earlier request, and a NAK is sent. -/
theorem recv_depends_on_stale : ¬∀ stale heap stale' heap' o,
    Gives (dhcpServerStart 10 20) (bareDatagram.packet stale heap) o ↔
      Gives (dhcpServerStart 10 20) (bareDatagram.packet stale' heap') o := by
  intro h
  have hsilent : Gives (dhcpServerStart 10 20) (bareDatagram.packet (behind [255]) fun _ => 0)
      ([], none) := by
    refine ⟨bufLen+1, fun fuel hfuel => ?_⟩
    rw [recv_eq_settle hfuel]
    exact settle_of_none (by decide +kernel) (by decide +kernel)
  rcases (h _ _ (behind [53, 1, 3]) (fun _ => 0) _).mp hsilent with ⟨rounds, hsame⟩
  have hrecv := hsame (max rounds (bufLen+1)) (by omega)
  rw [recv_eq_settle (by omega)] at hrecv
  have haccepted : ¬(bareDatagram.packet (behind [53, 1, 3]) fun _ => 0).Dropped := by
    decide +kernel
  have hrequest : (bareDatagram.packet (behind [53, 1, 3]) fun _ => 0).msgType = some 3 := by
    decide +kernel
  rcases settle_of_request (dhcpServerStart 10 20) _ haccepted hrequest with ⟨r, hsent⟩
  rw [hsent] at hrecv
  cases hrecv

end PineVoice.Dhcp
