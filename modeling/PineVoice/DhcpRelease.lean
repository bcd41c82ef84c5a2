import PineVoice.DhcpReturns

/-!
# What a release does to the list of leases

The loop of a release looks at every other node and unlinks from two nodes back.
It takes out the lease of its sender alone only at the front of the list, and it
returns from a list without such a lease only if the list is even.
-/

namespace PineVoice.Dhcp

open List Option

/-- The list without the lease of a hardware address. -/
def without (chaddr : List UInt8) (nodeList : List Node) : List Node :=
  nodeList.filter fun node => node.chaddr ≠ chaddr

section Without

variable {chaddr : List UInt8} {nodeList : List Node}

theorem without_eq_self_iff :
    without chaddr nodeList = nodeList ↔ ∀ node ∈ nodeList, node.chaddr ≠ chaddr := by
  simp [without]

/-- Without the first lease. -/
theorem without_cons_self {node : Node}
    (hdistinct : ((node :: nodeList).map Node.chaddr).Nodup) :
    without node.chaddr (node :: nodeList) = nodeList := by
  rw [map_cons, nodup_cons] at hdistinct
  have hrest : without node.chaddr nodeList = nodeList := without_eq_self_iff.mpr fun n hn hsame =>
    hdistinct.1 (hsame ▸ List.mem_map_of_mem hn)
  rw [without, filter_cons_of_neg (by simp), ← without, hrest]

/-- One lease is missing at most. -/
theorem length_without (chaddr : List UInt8) (hdistinct : (nodeList.map Node.chaddr).Nodup) :
    nodeList.length ≤ (without chaddr nodeList).length+1 := by
  induction nodeList with
  | nil => exact Nat.zero_le _
  | cons node rest ih =>
    by_cases heq : node.chaddr = chaddr
    · rw [← heq, without_cons_self hdistinct]
      exact Nat.le_refl _
    · rw [without, filter_cons_of_pos (by simpa using heq)]
      exact Nat.succ_le_succ (ih (List.nodup_cons.mp hdistinct).2)

/-- Hardware addresses of one length are compared as a whole. -/
theorem matches_iff {node : Node} (hlen : node.chaddr.length = chaddr.length) :
    node.Matches chaddr ↔ node.chaddr = chaddr := by
  rw [Node.Matches, ← hlen, take_length]

end Without

section Loop

variable {chaddr : List UInt8}

/-- Behind the front the loop leaves the list or takes two nodes out of it. -/
theorem releaseLoop_behind : ∀ {upTo nodes nodeList : List Node} {between : Node},
    releaseLoop chaddr upTo [between] nodes = some nodeList →
    nodeList = upTo ++ [between] ++ nodes ∨ nodeList.length+2 = (upTo ++ [between] ++ nodes).length
  | upTo, [], nodeList, between, h => by
    rw [List.append_nil]
    exact .inl (Option.some.inj h).symm
  | upTo, [node], nodeList, between, h => by
    rw [releaseLoop] at h
    split_ifs at h
    cases h
    exact .inr (by simp)
  | upTo, node :: other :: rest, nodeList, between, h => by
    rw [releaseLoop] at h
    split_ifs at h
    · cases h
      refine .inr ?_
      simp only [List.length_append, List.length_cons, List.length_nil]
      omega
    · have hlist : upTo ++ [between] ++ [node] ++ [other] ++ rest =
          upTo ++ [between] ++ node :: other :: rest := by
        simp only [append_assoc, cons_append, nil_append]
      rw [← hlist]
      exact releaseLoop_behind h

theorem mem_of_everyOther {α : Type*} {a : α} : ∀ {l : List α}, a ∈ everyOther l → a ∈ l
  | [_], h => h
  | x :: y :: rest, h => by
    rcases List.mem_cons.mp h with rfl | hrest
    · exact List.mem_cons_self
    · exact List.mem_cons_of_mem x (List.mem_cons_of_mem y (mem_of_everyOther hrest))

/-- The loop takes out the lease of the sender alone if that is the first one, or if there is
none and the list is even. -/
theorem releaseLoop_without_iff {nodes : List Node} (hdistinct : (nodes.map Node.chaddr).Nodup)
    (hlen : ∀ node ∈ nodes, node.chaddr.length = chaddr.length) :
    releaseLoop chaddr [] [] nodes = some (without chaddr nodes) ↔
      (∃ node ∈ nodes.head?, node.chaddr = chaddr) ∨
        (∀ node ∈ nodes, node.chaddr ≠ chaddr) ∧ Even nodes.length := by
  constructor
  · intro h
    by_cases hfirst : ∃ node ∈ nodes.head?, node.chaddr = chaddr
    · exact .inl hfirst
    refine .inr ?_
    have hnot : ∀ node ∈ nodes.head?, ¬node.Matches chaddr := fun node hmem hmatch =>
      hfirst ⟨node, hmem, (matches_iff (hlen node (mem_of_mem_head? hmem))).mp hmatch⟩
    have hsame : without chaddr nodes = nodes := by
      rcases nodes with _ | ⟨node, _ | ⟨other, rest⟩⟩
      · rfl
      · rw [releaseLoop, if_neg (hnot node rfl)] at h
        cases h
      · rw [releaseLoop, if_neg (hnot node rfl)] at h
        rcases releaseLoop_behind h with heq | htwo
        · exact heq
        · have hone := length_without chaddr hdistinct
          simp only [length_append, length_cons, length_nil] at htwo hone
          omega
    have hno := without_eq_self_iff.mp hsame
    refine ⟨hno, ?_⟩
    rcases releaseLoop_isSome_iff.mp (isSome_of_eq_some h) with ⟨node, hmem, hmatch⟩ | heven
    · have hnode := mem_of_everyOther hmem
      exact absurd ((matches_iff (hlen node hnode)).mp hmatch) (hno node hnode)
    · exact heven
  · rintro (⟨node, hhead, heq⟩ | ⟨hno, heven⟩)
    · obtain ⟨rest, rfl⟩ := List.head?_eq_some_iff.mp hhead
      have hmatch : node.Matches chaddr :=
        (matches_iff (hlen node mem_cons_self)).mpr heq
      rw [← heq, without_cons_self hdistinct, heq]
      cases rest with
      | nil => rw [releaseLoop, if_pos hmatch]
      | cons other rest =>
        rw [releaseLoop, if_pos hmatch]
        rfl
    · have hnot : ∀ node ∈ everyOther nodes, ¬node.Matches chaddr := fun node hmem hmatch =>
        hno node (mem_of_everyOther hmem)
          ((matches_iff (hlen node (mem_of_everyOther hmem))).mp hmatch)
      obtain ⟨nodeList, hloop⟩ :=
        Option.isSome_iff_exists.mp (releaseLoop_isSome_iff.mpr (.inr heven))
      rw [without_eq_self_iff.mpr hno]
      exact hloop.trans (congrArg some (releaseLoop_skips hnot hloop))

end Loop

/-- The packet takes out the lease of its sender, if there is one, and nothing else. -/
def Removes (s : Server) (p : Packet) : Prop :=
  ∃ fuel event, dhcpServerRecv fuel s p =
    some ({ s with nodeList := without p.chaddr s.nodeList }, event)

section Recv

variable {s : Server} {p : Packet}

/-- A release that is not dropped runs the loop. -/
theorem recv_release (haccepted : ¬p.Dropped) (htype : p.msgType = some 7) (fuel : ℕ) :
    dhcpServerRecv fuel s p = (p.findOption fuel 53).bind fun _ =>
      (releaseLoop p.chaddr [] [] s.nodeList).map fun nodeList =>
        ({ s with nodeList := nodeList }, .released p.chaddr) := by
  rw [dhcpServerRecv, if_neg haccepted]
  cases hopt : p.findOption fuel 53 with
  | none => rfl
  | some opt =>
    rw [Packet.msgType, ← Packet.eq_option hopt] at htype
    obtain ⟨pos, rfl, hcode⟩ := Option.map_eq_some_iff.mp htype
    rw [bind_some, bind_some]
    dsimp only
    rw [hcode, if_neg (by decide), if_neg (by decide), if_pos rfl]

theorem removes_iff_releaseLoop (haccepted : ¬p.Dropped) (htype : p.msgType = some 7) :
    Removes s p ↔ releaseLoop p.chaddr [] [] s.nodeList = some (without p.chaddr s.nodeList) := by
  constructor
  · rintro ⟨fuel, event, h⟩
    rw [recv_release haccepted htype] at h
    obtain ⟨opt, -, hloop⟩ := Option.bind_eq_some_iff.mp h
    obtain ⟨nodeList, hnodes, heq⟩ := Option.map_eq_some_iff.mp hloop
    rw [hnodes]
    exact congrArg (fun r => some r.1.nodeList) heq
  · intro h
    refine ⟨bufLen+1, .released p.chaddr, ?_⟩
    rw [recv_release haccepted htype, p.findOption_eq 53 (Nat.lt_succ_self bufLen), h]
    rfl

theorem removes_iff_dropped (hdropped : p.Dropped) :
    Removes s p ↔ ∀ node ∈ s.nodeList, node.chaddr ≠ p.chaddr := by
  have hrecv : ∀ fuel, dhcpServerRecv fuel s p = some (s, .silent) := fun fuel => by
    rw [dhcpServerRecv, if_pos hdropped]
  rw [← without_eq_self_iff]
  constructor
  · rintro ⟨fuel, event, h⟩
    rw [hrecv fuel] at h
    exact (congrArg (fun r => r.1.nodeList) (Option.some.inj h)).symm
  · intro h
    refine ⟨0, .silent, ?_⟩
    rw [h]
    exact hrecv 0

end Recv

/-- For every list of leases with distinct hardware addresses of six bytes and every release
with such an address, the release takes out the lease of its sender and nothing else if and
only if it is dropped and there is no such lease, or it is not dropped and that lease is the
first one, or it is not dropped, there is no such lease and the list is even. -/
theorem release_removes_iff (s : Server) (hdistinct : (s.nodeList.map Node.chaddr).Nodup)
    (hsix : ∀ node ∈ s.nodeList, node.chaddr.length = 6) (p : Packet) (hlen : p.hlen = 6)
    (htype : p.msgType = some 7) :
    Removes s p ↔
      (¬p.Dropped ∧ ∃ node ∈ s.nodeList.head?, node.chaddr = p.chaddr) ∨
        (∀ node ∈ s.nodeList, node.chaddr ≠ p.chaddr) ∧
          (p.Dropped ∨ Even s.nodeList.length) := by
  have hbytes : p.chaddr.length = 6 := by
    rw [Packet.chaddr, length_map, length_range, hlen]
  by_cases hdropped : p.Dropped
  · rw [or_iff_right fun h => h.1 hdropped, and_iff_left (.inl hdropped)]
    exact removes_iff_dropped hdropped
  · rw [and_iff_right hdropped, or_iff_right hdropped, removes_iff_releaseLoop hdropped htype]
    exact releaseLoop_without_iff hdistinct fun node hmem => (hsix node hmem).trans hbytes.symm

/-- A server with leases of some clients, the newest first. -/
def sampleServer (clients : List UInt8) : Server :=
  ⟨clients.map fun c => ⟨List.replicate 6 c, c.toUInt32⟩, 1, 20, 3⟩

/-- The release of the newer of two leases. -/
theorem release_removes_sample : Removes (sampleServer [2, 1]) (samplePacket 6 2 7 []).packet :=
  (release_removes_iff (sampleServer [2, 1]) (by decide) (by decide)
    (samplePacket 6 2 7 []).packet rfl (by decide +kernel)).mpr
    (.inl ⟨by decide +kernel, _, rfl, by decide +kernel⟩)

/-- The older of two leases stays after its release; the oldest of three is taken out together
with the one in front of it; a release without a lease in a list of one follows a null
pointer. -/
theorem release_removes_wrong :
    (dhcpServerRecv 10 (sampleServer [2, 1]) (samplePacket 6 1 7 []).packet).map Prod.fst =
        some (sampleServer [2, 1]) ∧
      ¬Removes (sampleServer [2, 1]) (samplePacket 6 1 7 []).packet ∧
      (dhcpServerRecv 10 (sampleServer [3, 2, 1]) (samplePacket 6 1 7 []).packet).map Prod.fst =
        some (sampleServer [3]) ∧
      ¬Removes (sampleServer [3, 2, 1]) (samplePacket 6 1 7 []).packet ∧
      ¬Returns (sampleServer [2]) (samplePacket 6 1 7 []).packet := by
  have haccepted : ¬(samplePacket 6 1 7 []).packet.Dropped := by decide +kernel
  have htype : (samplePacket 6 1 7 []).packet.msgType = some 7 := by decide +kernel
  rw [removes_iff_releaseLoop haccepted htype, removes_iff_releaseLoop haccepted htype]
  refine ⟨by decide +kernel, by decide +kernel, by decide +kernel, by decide +kernel, ?_⟩
  exact not_returns_runsOff haccepted ⟨htype, by decide +kernel, Nat.not_even_one⟩

end PineVoice.Dhcp
