import Mathlib.Algebra.Group.Nat.Even
import PineVoice.DhcpLeases

/-!
# When the DHCP server returns from a packet

The scan of the options always ends. The search for a free address ends exactly if an address of
the pool is free. A release follows a null pointer if it looks at an odd list and finds nothing.
Nothing else keeps `dhcp_server_recv` from returning.
-/

namespace PineVoice.Dhcp

open Transition List Option

section Pool

variable {startIp endIp : UInt32}

/-- The addresses that the cursor takes. -/
def Server.Pool (s : Server) (ip : UInt32) : Prop :=
  ∃ k, (nextAddr s.startIp s.endIp)^[k] s.startIp = ip

variable {a : UInt32}

theorem toNat_succ (h : a.toNat < 2^32-1) : (a+1).toNat = a.toNat+1 := by
  rw [UInt32.toNat_add, show (1 : UInt32).toNat = 1 from rfl, Nat.mod_eq_of_lt (by omega)]

/-- Up to the end of the range the cursor goes up by one. -/
theorem iterate_up : ∀ (k : ℕ) {b : UInt32}, b.toNat = a.toNat+k → b ≤ endIp →
    (nextAddr startIp endIp)^[k] a = b
  | 0, b, hb, _ => (UInt32.toNat_inj.mp hb).symm
  | k+1, b, hb, hend => by
    have hlt := b.toNat_lt
    have hpred : (UInt32.ofNat (a.toNat+k)).toNat = a.toNat+k :=
      UInt32.toNat_ofNat_of_lt' (by show _ < 2^32; omega)
    have hsucc : UInt32.ofNat (a.toNat+k)+1 = b := by
      rw [← UInt32.toNat_inj, toNat_succ (by omega)]
      omega
    have hle : UInt32.ofNat (a.toNat+k) ≤ endIp := by
      rw [UInt32.le_iff_toNat_le] at hend ⊢
      omega
    rw [Function.iterate_succ_apply', iterate_up k hpred hle, nextAddr, hsucc,
      if_neg (UInt32.not_lt.mpr hend)]

theorem iterate_to_end (h : a ≤ endIp) : ∃ k, (nextAddr startIp endIp)^[k] a = endIp := by
  rw [UInt32.le_iff_toNat_le] at h
  exact ⟨endIp.toNat-a.toNat, iterate_up _ (by omega) (UInt32.le_refl endIp)⟩

theorem iterate_trans {α : Type*} {f : α → α} {a b c : α} (hab : ∃ k, f^[k] a = b)
    (hbc : ∃ k, f^[k] b = c) : ∃ k, f^[k] a = c := by
  rcases hab with ⟨j, rfl⟩
  rcases hbc with ⟨k, rfl⟩
  exact ⟨k+j, Function.iterate_add_apply f k j a⟩

/-- Past the last address there is the cursor goes on at zero. -/
theorem nextAddr_max (startIp endIp : UInt32) : nextAddr startIp endIp 0xFFFFFFFF = 0 := by
  have hzero : (0xFFFFFFFF : UInt32)+1 = 0 := by decide
  have hnot : ¬endIp < 0 := UInt32.not_lt.mpr (UInt32.le_iff_toNat_le.mpr (Nat.zero_le _))
  rw [nextAddr, hzero, if_neg hnot]

theorem nextAddr_over (hle : endIp ≤ a) (ha : a ≠ 0xFFFFFFFF) :
    nextAddr startIp endIp a = startIp := by
  have hlt := a.toNat_lt
  have hne : a.toNat ≠ 2^32-1 := fun h => ha (UInt32.toNat_inj.mp h)
  rw [UInt32.le_iff_toNat_le] at hle
  rw [nextAddr, if_pos]
  rw [UInt32.lt_iff_toNat_lt, toNat_succ (by omega)]
  omega

/-- From a place in front of the end the cursor comes to the start of the range. -/
theorem iterate_low (h : a ≤ endIp) : ∃ k, (nextAddr startIp endIp)^[k] a = startIp := by
  refine iterate_trans (iterate_to_end h) ?_
  by_cases hend : endIp = 0xFFFFFFFF
  · have hall : startIp ≤ endIp := by
      rw [hend]
      exact Nat.le_of_lt_succ startIp.toNat_lt
    have hup : startIp.toNat = (0 : UInt32).toNat+startIp.toNat := (zero_add _).symm
    refine iterate_trans ⟨1, ?_⟩ ⟨startIp.toNat, iterate_up _ hup hall⟩
    rw [hend]
    exact nextAddr_max startIp 0xFFFFFFFF
  · exact ⟨1, nextAddr_over (UInt32.le_refl endIp) hend⟩

/-- From wherever it stands the cursor comes to the start of the range. -/
theorem iterate_to_start (startIp endIp a : UInt32) :
    ∃ k, (nextAddr startIp endIp)^[k] a = startIp := by
  by_cases hle : a ≤ endIp
  · exact iterate_low hle
  by_cases hmax : a = 0xFFFFFFFF
  · have hzero : (0 : UInt32) ≤ endIp := UInt32.le_iff_toNat_le.mpr (Nat.zero_le _)
    refine iterate_trans ⟨1, ?_⟩ (iterate_low hzero)
    rw [hmax]
    exact nextAddr_max startIp endIp
  · exact ⟨1, nextAddr_over (UInt32.le_of_lt (UInt32.not_le.mp hle)) hmax⟩

/-- The pool is the range, if the range has addresses and does not end with the last one
there is. -/
theorem Server.pool_iff_inRange {s : Server} (hle : s.startIp ≤ s.endIp)
    (hend : s.endIp ≠ 0xFFFFFFFF) (ip : UInt32) : s.Pool ip ↔ s.InRange ip := by
  constructor
  · rintro ⟨k, rfl⟩
    exact iterate_inRange hle hend ⟨UInt32.le_refl s.startIp, hle⟩ k
  · rintro ⟨hstart, hlast⟩
    rw [UInt32.le_iff_toNat_le] at hstart
    exact ⟨ip.toNat-s.startIp.toNat, iterate_up _ (by omega) hlast⟩

end Pool

section Search

variable {nodeList : List Node} {startIp endIp : UInt32}

/-- The search ends at the first free address it comes to. -/
theorem allocAgain_isSome : ∀ {k fuel : ℕ} {current : UInt32}, k < fuel →
    dhcpClientFindByIp nodeList ((nextAddr startIp endIp)^[k] current) = none →
    (dhcpAllocAgain nodeList startIp endIp fuel current).isSome
  | _, 0, _, hk, _ => absurd hk (Nat.not_lt_zero _)
  | k, fuel+1, current, hk, hfree => by
    rw [dhcpAllocAgain]
    cases hfind : dhcpClientFindByIp nodeList current with
    | none => rfl
    | some node =>
      cases k with
      | zero =>
        rw [Function.iterate_zero_apply, hfind] at hfree
        cases hfree
      | succ k => exact allocAgain_isSome (Nat.lt_of_succ_lt_succ hk) hfree

/-- A release returns if it finds its node or the list is even. -/
theorem releaseLoop_isSome_iff {chaddr : List UInt8} : ∀ {upTo between nodes : List Node},
    (releaseLoop chaddr upTo between nodes).isSome ↔
      (∃ node ∈ everyOther nodes, node.Matches chaddr) ∨ Even nodes.length
  | _, _, [] => iff_of_true rfl (.inr ⟨0, rfl⟩)
  | _, _, [node] => by
    have hodd : ¬Even [node].length := Nat.not_even_one
    rw [releaseLoop, or_iff_left hodd, everyOther]
    simp only [mem_singleton, exists_eq_left]
    split_ifs with hmatch
    · exact iff_of_true rfl hmatch
    · exact iff_of_false Bool.false_ne_true hmatch
  | upTo, between, node :: other :: rest => by
    have heven : Even (node :: other :: rest).length ↔ Even rest.length := by
      rw [length_cons, length_cons, Nat.even_add_one, Nat.even_add_one, not_not]
    rw [releaseLoop, heven, everyOther]
    simp only [mem_cons, exists_eq_or_imp]
    split_ifs with hmatch
    · exact iff_of_true rfl (.inl (.inl hmatch))
    · rw [releaseLoop_isSome_iff, or_iff_right hmatch]

end Search

/-- `dhcp_server_recv` returns. -/
def Returns (s : Server) (p : Packet) : Prop := ∃ fuel, (dhcpServerRecv fuel s p).isSome

/-- A client without a node is to get a new one, and all addresses of the pool are leased. -/
def Exhausted (s : Server) (p : Packet) : Prop :=
  p.msgType = some 1 ∧ dhcpClientFindByMac s.nodeList p.chaddr = none ∧
    (∀ ip ∈ p.requestedIp, dhcpClientFindByIp s.nodeList ip = none) ∧
    ∀ ip, s.Pool ip → dhcpClientFindByIp s.nodeList ip ≠ none

/-- A release matches no node that it looks at, in a list of odd length. -/
def RunsOff (s : Server) (p : Packet) : Prop :=
  p.msgType = some 7 ∧ (∀ node ∈ everyOther s.nodeList, ¬node.Matches p.chaddr) ∧
    ¬Even s.nodeList.length

section Returns

variable {fuel : ℕ} {s : Server} {p : Packet}

/-- A new node is found while there is a free address. -/
theorem clientNew_isSome (h : (dhcpAllocAgain s.nodeList s.startIp s.endIp fuel s.current).isSome) :
    (dhcpClientNew fuel s p).isSome := by
  rw [dhcpClientNew, isSome_map]
  exact h

theorem clientAlloc_isSome (hfuel : bufLen < fuel)
    (h : dhcpClientFindByMac s.nodeList p.chaddr = none →
      (∀ ip ∈ p.requestedIp, dhcpClientFindByIp s.nodeList ip = none) →
      (dhcpAllocAgain s.nodeList s.startIp s.endIp fuel s.current).isSome) :
    (dhcpClientAlloc fuel s p).isSome := by
  unfold dhcpClientAlloc
  cases hmac : dhcpClientFindByMac s.nodeList p.chaddr with
  | some node => rfl
  | none =>
    rw [p.findOption_eq 50 hfuel, bind_some]
    cases hopt : p.option 50 with
    | none =>
      have hip : p.requestedIp = none := by rw [Packet.requestedIp, hopt]; rfl
      refine clientNew_isSome (h hmac fun ip hmem => ?_)
      rw [hip] at hmem
      cases hmem
    | some opt =>
      have hip : p.requestedIp = some (ipAt p.mem (opt+2)) := by
        rw [Packet.requestedIp, hopt]; rfl
      dsimp only
      cases hnode : dhcpClientFindByIp s.nodeList (ipAt p.mem (opt+2)) with
      | some node => rfl
      | none =>
        refine clientNew_isSome (h hmac fun ip hmem => ?_)
        rw [hip] at hmem
        cases hmem
        exact hnode

theorem clientFind_isSome (hfuel : bufLen < fuel) : (dhcpClientFind fuel s p).isSome := by
  unfold dhcpClientFind
  cases dhcpClientFindByMac s.nodeList p.chaddr with
  | some node => rfl
  | none =>
    rw [p.findOption_eq 50 hfuel]
    rfl

/-- With enough fuel only the two searches matter. -/
theorem recv_isSome (hfuel : bufLen < fuel)
    (hdiscover : p.msgType = some 1 → dhcpClientFindByMac s.nodeList p.chaddr = none →
      (∀ ip ∈ p.requestedIp, dhcpClientFindByIp s.nodeList ip = none) →
      (dhcpAllocAgain s.nodeList s.startIp s.endIp fuel s.current).isSome)
    (hrelease : p.msgType = some 7 → (releaseLoop p.chaddr [] [] s.nodeList).isSome) :
    (dhcpServerRecv fuel s p).isSome := by
  unfold dhcpServerRecv
  split_ifs
  · rfl
  rw [p.findOption_eq 53 hfuel, bind_some]
  cases hopt : p.option 53 with
  | none => rfl
  | some opt =>
    have htype : p.msgType = some (p.mem (opt+2)) := by rw [Packet.msgType, hopt]; rfl
    dsimp only
    split_ifs with h1 h3 h7
    · rw [isSome_map]
      exact clientAlloc_isSome hfuel (hdiscover (h1 ▸ htype))
    · rw [isSome_map]
      exact clientFind_isSome hfuel
    · rw [isSome_map]
      exact hrelease (h7 ▸ htype)
    · rfl

/-- The type of a packet that was handled is the one that the scan found. -/
theorem recv_msgType (haccepted : ¬p.Dropped) {code : UInt8} (htype : p.msgType = some code)
    (h : (dhcpServerRecv fuel s p).isSome) :
    (code = 1 → (dhcpClientAlloc fuel s p).isSome) ∧
      (code = 7 → (releaseLoop p.chaddr [] [] s.nodeList).isSome) := by
  unfold dhcpServerRecv at h
  rw [if_neg haccepted] at h
  rcases Option.isSome_iff_exists.mp h with ⟨r, hr⟩
  rcases Option.bind_eq_some_iff.mp hr with ⟨opt, hopt, hrest⟩
  rw [Packet.msgType, ← Packet.eq_option hopt] at htype
  cases opt with
  | none => cases htype
  | some opt =>
    have hcode : p.mem (opt+2) = code := Option.some.inj htype
    dsimp only at hrest
    rw [hcode] at hrest
    constructor
    · rintro rfl
      rcases Option.map_eq_some_iff.mp hrest with ⟨x, hx, -⟩
      exact isSome_of_eq_some hx
    · rintro rfl
      rcases Option.map_eq_some_iff.mp hrest with ⟨x, hx, -⟩
      exact isSome_of_eq_some hx

/-- A search in a pool without a free address does not end. -/
theorem not_returns_exhausted (haccepted : ¬p.Dropped) (hpool : s.Pool s.current)
    (h : Exhausted s p) : ¬Returns s p := by
  rintro ⟨fuel, hrecv⟩
  rcases h with ⟨htype, hmac, hip, hfull⟩
  have halloc := (recv_msgType haccepted htype hrecv).1 rfl
  have hnew : (dhcpClientNew fuel s p).isSome := by
    rw [dhcpClientAlloc, hmac] at halloc
    rcases Option.isSome_iff_exists.mp halloc with ⟨r, hr⟩
    rcases Option.bind_eq_some_iff.mp hr with ⟨opt, hopt, hrest⟩
    cases opt with
    | none => exact isSome_of_eq_some hrest
    | some opt =>
      have hnone : dhcpClientFindByIp s.nodeList (ipAt p.mem (opt+2)) = none := by
        refine hip _ ?_
        rw [Packet.requestedIp, ← Packet.eq_option hopt]
        rfl
      dsimp only at hrest
      rw [hnone] at hrest
      exact isSome_of_eq_some hrest
  rw [dhcpClientNew, isSome_map] at hnew
  rcases Option.isSome_iff_exists.mp hnew with ⟨ip, hfound⟩
  rcases allocAgain_reached hfound with ⟨hfree, hreach⟩
  exact hfull ip (iterate_trans hpool hreach) hfree

theorem not_returns_runsOff (haccepted : ¬p.Dropped) (h : RunsOff s p) : ¬Returns s p := by
  rintro ⟨fuel, hrecv⟩
  rcases h with ⟨htype, hno, hodd⟩
  have hloop := (recv_msgType haccepted htype hrecv).2 rfl
  rcases releaseLoop_isSome_iff.mp hloop with ⟨node, hmem, hmatch⟩ | heven
  · exact hno node hmem hmatch
  · exact hodd heven

/-- Otherwise the function returns. -/
theorem returns_of_not (hexhausted : ¬Exhausted s p) (hrunsOff : ¬RunsOff s p) : Returns s p := by
  have hrelease : p.msgType = some 7 → (releaseLoop p.chaddr [] [] s.nodeList).isSome := by
    intro htype
    rw [releaseLoop_isSome_iff]
    by_contra hneither
    rw [not_or, not_exists] at hneither
    exact hrunsOff ⟨htype, fun node hmem hmatch => hneither.1 node ⟨hmem, hmatch⟩, hneither.2⟩
  by_cases hnew : p.msgType = some 1 ∧ dhcpClientFindByMac s.nodeList p.chaddr = none ∧
      ∀ ip ∈ p.requestedIp, dhcpClientFindByIp s.nodeList ip = none
  · have hfree : ∃ ip, s.Pool ip ∧ dhcpClientFindByIp s.nodeList ip = none := by
      by_contra hnone
      rw [not_exists] at hnone
      exact hexhausted ⟨hnew.1, hnew.2.1, hnew.2.2, fun ip hpool hip => hnone ip ⟨hpool, hip⟩⟩
    rcases hfree with ⟨ip, hpool, hip⟩
    rcases iterate_trans (iterate_to_start s.startIp s.endIp s.current) hpool with ⟨k, hk⟩
    rw [← hk] at hip
    refine ⟨k+bufLen+1, recv_isSome (by omega) (fun _ _ _ => ?_) hrelease⟩
    exact allocAgain_isSome (by omega) hip
  · refine ⟨bufLen+1, recv_isSome (by omega) (fun htype hmac hip => ?_) hrelease⟩
    exact absurd ⟨htype, hmac, hip⟩ hnew

/-- The cursor stays in the pool. -/
theorem Handled.pool {s' : Server} {event : Event} (h : Handled s p s' event)
    (hpool : s.Pool s.current) : s'.Pool s'.current := by
  cases h with
  | silent | known | leased | refused | released => exact hpool
  | new haccepted hfree => exact iterate_trans hpool (allocAgain_reached hfree).2
  | noMemory hfree => exact iterate_trans hpool (allocAgain_reached hfree).2

end Returns

/-- After any packets, `dhcp_server_recv` returns from a packet if and only if the packet is
dropped, or it neither needs a new address from a pool without a free one nor is a release
that runs off the end of the list. -/
theorem recv_returns_iff {startIp endIp : UInt32} {packets : List Recv} {net : Net}
    (hrun : run Net.step (Net.start startIp endIp) packets = some net) (p : Packet) :
    Returns net.server p ↔ p.Dropped ∨ ¬Exhausted net.server p ∧ ¬RunsOff net.server p := by
  have hstep : ∀ (net : Net) (r : Recv) (net' : Net), True → net.server.Pool net.server.current →
      net.step r = some net' → net'.server.Pool net'.server.current := by
    intro net r net' _ hpool hstep
    rcases Option.map_eq_some_iff.mp hstep with ⟨⟨s', event⟩, hrecv, rfl⟩
    exact (recv_handled hrecv).pool hpool
  have hpool : net.server.Pool net.server.current :=
    run_keeps (P := fun net => net.server.Pool net.server.current) hstep
      (along_true packets (Net.start startIp endIp)) ⟨0, rfl⟩ hrun
  by_cases haccepted : p.Dropped
  · refine iff_of_true ⟨0, ?_⟩ (.inl haccepted)
    rw [dhcpServerRecv, if_pos haccepted]
    rfl
  · rw [or_iff_right haccepted]
    constructor
    · exact fun h => ⟨fun hfull => not_returns_exhausted haccepted hpool hfull h,
        fun hoff => not_returns_runsOff haccepted hoff h⟩
    · exact fun h => returns_of_not h.1 h.2

/-- After two clients have an address, the third one's request returns. -/
theorem recv_returns_iff_sample :
    ∃ net, run Net.step (Net.start 10 20) [sampleDiscover 1, sampleDiscover 2] = some net ∧
      net.server.nodeList.length = 2 ∧ (Returns net.server (sampleDiscover 3).packet ↔
        (sampleDiscover 3).packet.Dropped ∨ ¬Exhausted net.server (sampleDiscover 3).packet ∧
          ¬RunsOff net.server (sampleDiscover 3).packet) :=
  exists_some_and (by decide +kernel) fun _ hrun _ => recv_returns_iff hrun _

/-- A range of one address that is leased, and another client: the search goes on for ever. A
list of one node, and a release of another client: the end of the list is passed. -/
theorem recv_not_returns :
    ∃ net, run Net.step (Net.start 10 10) [sampleDiscover 1] = some net ∧
      ¬Returns net.server (sampleDiscover 2).packet ∧
      ¬Returns net.server (samplePacket 6 2 7 []).packet := by
  have hnet : run Net.step (Net.start 10 10) [sampleDiscover 1] =
      some ⟨⟨[⟨[1, 1, 1, 1, 1, 1], 10⟩], 10, 10, 10⟩, [([1, 1, 1, 1, 1, 1], 10)]⟩ := by
    decide +kernel
  refine ⟨_, hnet, ?_, ?_⟩
  · refine not_returns_exhausted (by decide +kernel) ⟨0, rfl⟩ ⟨?_, ?_, ?_, fun ip hip => ?_⟩
    · decide +kernel
    · decide +kernel
    · exact fun ip hip => nomatch hip
    · rw [Server.pool_iff_inRange (by decide) (by decide)] at hip
      have hten : ip = 10 := UInt32.le_antisymm hip.2 hip.1
      rw [hten]
      decide
  · exact not_returns_runsOff (by decide +kernel)
      ⟨by decide +kernel, by decide +kernel, Nat.not_even_one⟩

end PineVoice.Dhcp
