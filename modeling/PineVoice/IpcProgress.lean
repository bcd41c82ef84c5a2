import PineVoice.IpcDelivery

/-!
# Nothing is left on the way

When neither core can take a step, every service has received everything that was sent to
it. The steps that are left shrink with every step that is not a new message, so this state
is reached after finitely many steps, in whatever order they are taken.
-/

namespace PineVoice.Ipc

open Function List

/-- A step of a task or an interrupt that is already under way. -/
def Act.internal : Act → Bool
  | .send _ | .addService _ => false
  | _ => true

/-- Nothing that is under way can go on. -/
def Quiet (shm : Side → Shm) (y : Sys) : Prop :=
  ∀ s act, act.internal = true → y.step shm s act = none

section Blocked

variable {shm : Shm} {s0 : ℕ} {d : Dir} {ch : Option Holder}

theorem txStep_none (h : d.txStep shm ch = none) :
    d.tx = .idle ∨ (∃ j, d.tx = .wait j ∧ d.writeEvt = false) ∨
      (∃ j, d.tx = .lock j ∧ ch ≠ none) := by
  revert h
  fun_cases Dir.txStep shm d ch <;> rintro ⟨⟩
  case case1 htx => exact .inl htx
  case case5 j htx hevt => exact .inr (.inl ⟨j, htx, Bool.eq_false_iff.mpr hevt⟩)
  case case7 j htx hch => exact .inr (.inr ⟨j, htx, hch⟩)

theorem rxStep_none (h : d.rxStep ch = none) :
    (d.rx = .wait ∧ d.readEvt = false) ∨ (d.rx = .lock ∧ ch ≠ none) ∨
      ∃ p, d.rx = .enqueue p ∧ ¬(d.svc p.serviceId).queue.length < serverQueueSize := by
  revert h
  fun_cases Dir.rxStep d ch <;> rintro ⟨⟩
  case case2 hrx hevt => exact .inl ⟨hrx, Bool.eq_false_iff.mpr hevt⟩
  case case4 hrx hch => exact .inr (.inl ⟨hrx, hch⟩)
  case case12 p hrx _ _ hroom => exact .inr (.inr ⟨p, hrx, hroom⟩)

theorem svcStep_none {id : ℕ} (h : d.svcStep id = none) :
    ((d.svc id).pc = .idle ∧ (d.svc id).queue = []) ∨
      (∃ p, (d.svc id).pc = .first p ∧ d.rxMutex ≠ none) ∨
      ∃ c, (d.svc id).pc = .collect c ∧ 0 < c.left ∧ (d.svc id).queue = [] := by
  revert h
  fun_cases Dir.svcStep d id <;> rintro ⟨⟩
  case case1 hpc hqueue => exact .inl ⟨hpc, hqueue⟩
  case case4 p hpc hfree => exact .inr (.inl ⟨p, hpc, hfree⟩)
  case case5 c hpc hleft hqueue => exact .inr (.inr ⟨c, hpc, hleft, hqueue⟩)

end Blocked

section Order

variable {shm : Shm} {s0 : ℕ} {d : Dir}

theorem filter_packets (l : List Message) (id : ℕ) :
    (l.flatMap (Message.packets shm)).filter (·.serviceId = id) =
      (l.filter (·.serviceId = id)).flatMap (Message.packets shm) := by
  induction l with
  | nil => rfl
  | cons m l ih =>
    have hmine : ∀ p ∈ m.packets shm, p.serviceId = m.serviceId := by
      intro p hp
      obtain ⟨data, rfl⟩ := mem_packets hp
      rfl
    rw [flatMap_cons, filter_append, ih]
    by_cases hid : m.serviceId = id
    · rw [filter_cons_of_pos (by simpa using hid), flatMap_cons,
        List.filter_eq_self.mpr fun p hp => by simpa [hmine p hp] using hid]
    · rw [filter_cons_of_neg (by simpa using hid),
        List.filter_eq_nil_iff.mpr fun p hp => by simpa [hmine p hp] using hid, nil_append]

/-- A message that was sent to a service, among all messages. -/
theorem split_sent {id : ℕ} {done ms : List Message} {m : Message}
    (h : d.sentTo id = done ++ m :: ms) :
    ∃ pre post, d.sent = pre ++ m :: post ∧ post.filter (·.serviceId = id) = ms ∧
      m.serviceId = id := by
  obtain ⟨l₁, l₂, hsent, -, hrest⟩ := List.filter_eq_append_iff.mp h
  obtain ⟨l₃, post, rfl, -, hm, hpost⟩ := List.filter_eq_cons_iff.mp hrest
  refine ⟨l₁ ++ l₃, post, ?_, hpost, by simpa using hm⟩
  rw [hsent, append_assoc]

/-- The packet that a collecting service waits for is the next one to be handed on. -/
theorem Link.next_packet (h : Link shm s0 d) {id : ℕ} {c : Collect}
    (hpc : (d.svc id).pc = .collect c) (hleft : 0 < c.left) (hqueue : (d.svc id).queue = [])
    {p : Packet} (hp : (d.packets shm)[d.taken]? = some p) : p.serviceId = id := by
  obtain ⟨done, todo, hsplit, -, hawaits⟩ := h.served id
  rw [hpc, hqueue, nil_append] at hawaits
  obtain ⟨m, ms, rest, rfl, hc, hlater⟩ := hawaits
  obtain ⟨pre, post, hsent, hpost, hm⟩ := split_sent hsplit
  have hpackets : d.packets shm = pre.flatMap (Message.packets shm) ++
      (m.packets shm ++ post.flatMap (Message.packets shm)) := by
    rw [Dir.packets, hsent, flatMap_append, flatMap_cons]
  have hpost' : (post.flatMap (Message.packets shm)).filter (·.serviceId = id) =
      ms.flatMap (Message.packets shm) := by rw [filter_packets, hpost]
  have hown : (m.packets shm).filter (·.serviceId = id) = m.packets shm :=
    List.filter_eq_self.mpr fun q hq => by
      obtain ⟨data, rfl⟩ := mem_packets hq
      exact decide_eq_true hm
  have hlen : (d.laterFor shm id).length = (m.restPackets shm rest).length+
      (ms.flatMap (Message.packets shm)).length := by rw [hlater, length_append]
  have hfewer := hc.fewer
  have hrest : 0 < (m.restPackets shm rest).length := by
    have hne : rest ≠ [] := by
      intro hnil
      rw [hc.left, hnil] at hleft
      exact absurd hleft (lt_irrefl 0)
    rw [restPackets_cons hne]
    exact Nat.succ_pos _
  rcases lt_or_ge (pre.flatMap (Message.packets shm)).length d.taken with hbegun | hbefore
  · rcases lt_or_ge d.taken ((pre.flatMap (Message.packets shm)).length+
        (m.packets shm).length) with hin | hover
    · rw [hpackets, getElem?_append_right (by omega), getElem?_append_left (by omega)] at hp
      obtain ⟨data, rfl⟩ := mem_packets (mem_of_getElem? hp)
      exact hm
    · have hdrop : (d.packets shm).drop d.taken = (post.flatMap (Message.packets shm)).drop
          (d.taken-(pre.flatMap (Message.packets shm)).length-(m.packets shm).length) := by
        rw [hpackets, drop_append, drop_eq_nil_of_le (by omega), nil_append,
          drop_append, drop_eq_nil_of_le (by omega), nil_append]
      have hle : (d.laterFor shm id).length ≤ (ms.flatMap (Message.packets shm)).length := by
        rw [Dir.laterFor, hdrop, ← hpost']
        exact ((drop_sublist _ _).filter _).length_le
      omega
  · have hle : (m.packets shm).length+(ms.flatMap (Message.packets shm)).length ≤
        (d.laterFor shm id).length := by
      rw [Dir.laterFor, hpackets, drop_append_of_le_length hbefore, filter_append,
        filter_append, hown, hpost', length_append, length_append]
      omega
    omega

end Order

section Quiet

variable {shm : Side → Shm} {y : Sys}

section

variable (h : Quiet shm y)
include h

theorem Quiet.tx (s : Side) : (y.dir s).txStep (shm s) (y.ch s) = none :=
  Option.map_eq_none_iff.mp (h s .tx rfl)

theorem Quiet.rx (s : Side) : (y.dir s).rxStep (y.ch s.other) = none :=
  Option.map_eq_none_iff.mp (h s .rx rfl)

theorem Quiet.svc (s : Side) (id : ℕ) : (y.dir s).svcStep id = none :=
  Option.map_eq_none_iff.mp (h s (.svc id) rfl)

theorem Quiet.irqs (s : Side) : (y.dir s).dataIrq = 0 ∧ (y.dir s).ackIrq = 0 := by
  have hdata : (y.dir s).dataStep = none := Option.map_eq_none_iff.mp (h s .dataIrq rfl)
  have hack : (y.dir s).ackStep = none := Option.map_eq_none_iff.mp (h s .ackIrq rfl)
  constructor
  · cases hirq : (y.dir s).dataIrq with
    | zero => rfl
    | succ n =>
      rw [Dir.dataStep, hirq] at hdata
      cases hdata
  · cases hirq : (y.dir s).ackIrq with
    | zero => rfl
    | succ n =>
      rw [Dir.ackStep, hirq] at hack
      cases hack

/-- A service that holds `rx_mutex` waits for its next packet. -/
theorem Quiet.holder {s0 : ℕ} {s : Side} (hlink : Link (shm s) s0 (y.dir s))
    (hmutex : (y.dir s).rxMutex ≠ none) :
    ∃ t c, ((y.dir s).svc t).pc = .collect c ∧ 0 < c.left ∧ ((y.dir s).svc t).queue = [] := by
  obtain ⟨t, ht⟩ := Option.ne_none_iff_exists'.mp hmutex
  obtain ⟨c, hc⟩ := hlink.mutex t ht
  rcases svcStep_none (h.svc s t) with ⟨hpc, -⟩ | ⟨q, hpc, -⟩ | hwaits
  · rw [hc] at hpc
    cases hpc
  · rw [hc] at hpc
    cases hpc
  · exact ⟨t, hwaits⟩

/-- The holder of a `ch_mutex` could go on, so nobody holds one. -/
theorem Quiet.ch (hgood : Good shm y) (s : Side) : y.ch s = none := by
  cases hch : y.ch s with
  | none => rfl
  | some holder =>
    cases holder with
    | tx =>
      have hin := hgood.chTx s hch
      rcases txStep_none (h.tx s) with htx | ⟨j, htx, -⟩ | ⟨j, htx, -⟩ <;> rw [htx] at hin <;>
        exact absurd hin id
    | rx =>
      have hin := hgood.chRx s.other (by rw [other_other]; exact hch)
      rcases rxStep_none (h.rx s.other) with ⟨hrx, -⟩ | ⟨hrx, -⟩ | ⟨p, hrx, -⟩ <;>
        rw [hrx] at hin <;> exact absurd hin id

/-- Nothing is left between the cores, and no task is sending. -/
theorem Quiet.link (hgood : Good shm y) (s : Side) :
    (y.dir s).tx = .idle ∧ ((y.dir s).packets (shm s)).drop (y.dir s).taken = [] := by
  obtain ⟨s0, hlink⟩ := hgood.link s
  obtain ⟨hdata, hack⟩ := h.irqs s
  have htoken := hlink.flow.token
  have hcount := hlink.flow.count
  rcases rxStep_none (h.rx s) with ⟨hrx, hread⟩ | ⟨-, hch⟩ | ⟨p, hrx, hfull⟩
  · simp only [Dir.inBox, hrx, hread, Rx.token, Rx.busy, Bool.toNat_false]
      at htoken hcount
    rcases txStep_none (h.tx s) with htx | ⟨j, htx, hwrite⟩ | ⟨j, -, hch⟩
    · have hpending := hlink.flow.pending
      rw [htx] at hpending
      rw [show (y.dir s).taken = (y.dir s).posted by omega]
      exact ⟨htx, hpending⟩
    · simp only [htx, hwrite, Tx.token, Bool.toNat_false] at htoken
      omega
    · exact absurd (h.ch hgood s) hch
  · exact absurd (h.ch hgood s.other) hch
  · have hp := hlink.flow.handed hrx
    exfalso
    rcases svcStep_none (h.svc s p.serviceId) with ⟨-, hqueue⟩ | ⟨q, -, hmutex⟩ | ⟨c, -, -, hqueue⟩
    · rw [hqueue] at hfull
      exact hfull (by decide)
    · obtain ⟨t, c, hpc, hleft, hqueue⟩ := h.holder hlink hmutex
      rw [hlink.next_packet hpc hleft hqueue hp, hqueue] at hfull
      exact hfull (by decide)
    · rw [hqueue] at hfull
      exact hfull (by decide)

/-- Every service has received everything. -/
theorem Quiet.delivered (hgood : Good shm y) (s : Side) (id : ℕ) :
    (y.dir s).delivered id = ((y.dir s).sentTo id).map (Message.received (shm s)) := by
  obtain ⟨s0, hlink⟩ := hgood.link s
  have hlater : ∀ i, (y.dir s).laterFor (shm s) i = [] := by
    intro i
    rw [Dir.laterFor, (h.link hgood s).2]
    rfl
  have hcollect : ∀ i c, ((y.dir s).svc i).pc = .collect c → ((y.dir s).svc i).queue = [] →
      ¬0 < c.left := by
    intro i c hpc hqueue hleft
    obtain ⟨done, todo, -, -, hawaits⟩ := hlink.served i
    rw [hpc, hqueue, hlater] at hawaits
    obtain ⟨m, ms, rest, -, hc, hstream⟩ := hawaits
    have hne : rest ≠ [] := by
      intro hnil
      rw [hc.left, hnil] at hleft
      exact absurd hleft (lt_irrefl 0)
    rw [restPackets_cons hne] at hstream
    cases hstream
  obtain ⟨done, todo, hsplit, hdone, hawaits⟩ := hlink.served id
  have hidle : ((y.dir s).svc id).pc = .idle ∧ ((y.dir s).svc id).queue = [] := by
    rcases svcStep_none (h.svc s id) with hidle | ⟨p, -, hmutex⟩ | ⟨c, hpc, hleft, hqueue⟩
    · exact hidle
    · obtain ⟨t, c, hpc, hleft, hqueue⟩ := h.holder hlink hmutex
      exact absurd hleft (hcollect t c hpc hqueue)
    · exact absurd hleft (hcollect id c hpc hqueue)
  rw [hidle.1, hidle.2, hlater] at hawaits
  have hnil : todo = [] := by
    cases todo with
    | nil => rfl
    | cons m ms => cases show ([] : List Packet) = _ from hawaits
  rw [hdone, hsplit, hnil, append_nil]

end

end Quiet

section Work

/-- The steps from the data interrupt of a packet on, without those of its service. -/
def Shm.boxWork (shm : Shm) : ℕ := shm.size+40

/-- The steps for the rest of a payload. -/
def restWork (shm : Shm) (rest : List UInt8) : ℕ :=
  ((pieces shm.size rest).map fun c => c.length+14+shm.boxWork).sum

/-- The steps that the sender can still cause. -/
def Tx.work (shm : Shm) : Tx → ℕ
  | .idle => 0
  | .fill j i => (j.chunk.length-i)+13+shm.boxWork+restWork shm j.rest
  | .wait j => 12+shm.boxWork+restWork shm j.rest
  | .lock j => 11+shm.boxWork+restWork shm j.rest
  | .put j _ i => (descWords-i)+3+shm.boxWork+restWork shm j.rest
  | .trigger j => 2+shm.boxWork+restWork shm j.rest
  | .unlock j => 1+restWork shm j.rest

/-- The steps that the receiver can still cause. -/
def Rx.work (shm : Shm) : Rx → ℕ
  | .wait => 0
  | .lock => shm.size+38
  | .get ws => (descWords-ws.length)+30+shm.size
  | .ack _ => shm.size+29
  | .unlock _ => shm.size+12
  | .copy e bytes => (e.len-bytes.length)+10
  | .enqueue _ => 9

/-- The steps that a service can still take. -/
def Service.work (s : Service) : ℕ :=
  4*s.queue.length+match s.pc with
    | .idle => 0
    | .first _ => 3
    | .collect _ => 2
    | .process _ => 1

/-- The steps that are left in a direction. -/
def Dir.work (shm : Shm) (d : Dir) : ℕ :=
  d.tx.work shm+shm.boxWork*d.dataIrq+(shm.boxWork-1)*d.readEvt.toNat+d.rx.work shm+d.ackIrq+
    ∑ id ∈ d.registered.toFinset, (d.svc id).work

variable {shm : Shm} {s0 : ℕ} {d d' : Dir} {ch ch' : Option Holder}

theorem restWork_cons {rest : List UInt8} (h : rest ≠ []) :
    restWork shm rest =
      (rest.take shm.size).length+14+shm.boxWork+restWork shm (rest.drop shm.size) := by
  rw [restWork, pieces_cons shm.size_pos h]
  rfl

theorem work_nextTx (j : Job) : (nextTx shm j).work shm < 1+restWork shm j.rest := by
  unfold nextTx
  split_ifs with hrest
  · exact Nat.lt_of_lt_of_le Nat.zero_lt_one (Nat.le_add_right _ _)
  · rw [restWork_cons hrest]
    show ((j.rest.take shm.size).length-0)+13+shm.boxWork+restWork shm (j.rest.drop shm.size) < _
    omega

theorem txStep_work (hstep : d.txStep shm ch = some (d', ch')) : d'.work shm < d.work shm := by
  revert hstep
  fun_cases Dir.txStep shm d ch <;> rintro ⟨⟩
  case case2 htx b hb =>
    have hi := (List.getElem?_eq_some_iff.mp hb).1
    simp only [Dir.work, htx, Tx.work]
    omega
  case case3 htx _ | case4 htx _ | case9 htx _ =>
    simp only [Dir.work, htx, Tx.work]
    omega
  case case6 htx _ =>
    simp only [Dir.work, htx, Tx.work, descWords]
    omega
  case case8 i htx w hw =>
    have hi : i < descWords := (List.getElem?_eq_some_iff.mp hw).1
    simp only [Dir.work, htx, Tx.work]
    omega
  case case10 htx =>
    simp only [Dir.work, htx, Tx.work, Nat.mul_succ]
    omega
  case case11 j htx =>
    have hnext : (nextTx shm j).work shm < 1+restWork shm j.rest := work_nextTx j
    have hold : d.tx.work shm = 1+restWork shm j.rest := by rw [htx]; rfl
    simp only [Dir.work]
    omega

theorem dataStep_work (hstep : d.dataStep = some d') : d'.work shm < d.work shm := by
  revert hstep
  fun_cases Dir.dataStep d <;> rintro ⟨⟩
  case case2 n hirq =>
    have hpos : 0 < shm.boxWork := Nat.succ_pos _
    simp only [Dir.work, hirq, Nat.mul_succ, Bool.toNat_true]
    omega

theorem ackStep_work (hstep : d.ackStep = some d') : d'.work shm < d.work shm := by
  revert hstep
  fun_cases Dir.ackStep d <;> rintro ⟨⟩
  case case2 n hirq =>
    simp only [Dir.work]
    omega

theorem mem_pieces_length {size : ℕ} {data c : List UInt8} (h : c ∈ pieces size data) :
    c.length ≤ size := by
  induction data using pieces.induct size with
  | case1 data hnil =>
    rw [pieces, if_pos hnil] at h
    exact absurd h not_mem_nil
  | case2 data hne ih =>
    rw [pieces, if_neg hne] at h
    rcases List.mem_cons.mp h with rfl | hrest
    · exact length_take_le _ _
    · exact ih hrest

/-- A packet fits a slot. -/
theorem mem_packets_length {m : Message} {p : Packet} (h : p ∈ m.packets shm) :
    p.data.length ≤ shm.size := by
  rcases List.mem_cons.mp h with rfl | hrest
  · show (dispatch m ++ m.payload.take (shm.size-dispatchSize)).length ≤ shm.size
    have hsize := shm.size_gt
    rw [length_append, dispatch_length, length_take]
    simp only [dispatchSize]
    omega
  · obtain ⟨c, hc, rfl⟩ := List.mem_map.mp hrest
    exact mem_pieces_length hc

/-- The descriptor that was read names a length that fits a slot. -/
theorem Flow.len_le {e : Desc} (h : Flow shm s0 d) (hrx : d.rx = .unlock e) : e.len ≤ shm.size := by
  have hdone := h.rx
  have hcount := h.count
  rw [hrx] at hdone hcount
  obtain ⟨p, hp⟩ := h.at_taken (by simp only [Rx.busy] at hcount; omega)
  have he : e = descAt s0 d.taken p := hdone p hp
  obtain ⟨m, -, hpm⟩ := List.mem_flatMap.mp (mem_of_getElem? hp)
  rw [he]
  exact mem_packets_length hpm

theorem sum_update_work {ids : Finset ℕ} {id : ℕ} (hid : id ∈ ids) (svc : ℕ → Service)
    (t : Service) :
    (∑ i ∈ ids, (update svc id t i).work)+(svc id).work = (∑ i ∈ ids, (svc i).work)+t.work := by
  have hrest : ∑ i ∈ ids.erase id, (update svc id t i).work = ∑ i ∈ ids.erase id, (svc i).work :=
    Finset.sum_congr rfl fun i hi => by rw [update_of_ne (Finset.ne_of_mem_erase hi)]
  rw [← Finset.add_sum_erase ids _ hid, ← Finset.add_sum_erase ids (fun i => (svc i).work) hid,
    update_self]
  omega

theorem Link.rxStep_work (h : Link shm s0 d) (hstep : d.rxStep ch = some (d', ch')) :
    d'.work shm < d.work shm := by
  have hbox : shm.boxWork = shm.size+40 := rfl
  revert hstep
  fun_cases Dir.rxStep d ch <;> rintro ⟨⟩
  case case1 hrx hevt =>
    simp only [Dir.work, hevt, Rx.work, Bool.toNat_true, Bool.toNat_false]
    omega
  case case3 hrx _ =>
    simp only [Dir.work, hrx, Rx.work, descWords]
    omega
  case case5 hrx hlt | case9 hrx hlt =>
    simp only [Dir.work, hrx, Rx.work, length_append, length_singleton]
    omega
  case case6 hrx hlt | case10 hrx hlt | case13 hrx hlt =>
    simp only [Dir.work, hrx, Rx.work]
    omega
  case case7 hrx =>
    simp only [Dir.work, hrx, Rx.work]
    omega
  case case8 e hrx =>
    have hlen := h.flow.len_le hrx
    simp only [Dir.work, hrx, Rx.work]
    split_ifs <;> simp only [length_nil] <;> omega
  case case11 p hrx hreg s hroom =>
    subst s
    have hsum := sum_update_work (List.mem_toFinset.mpr hreg) d.svc
      ⟨(d.svc p.serviceId).queue ++ [p], (d.svc p.serviceId).pc⟩
    have hone : Service.work ⟨(d.svc p.serviceId).queue ++ [p], (d.svc p.serviceId).pc⟩ =
        (d.svc p.serviceId).work+4 := by
      simp only [Service.work, length_append, length_singleton]
      omega
    simp only [Dir.work, Dir.setSvc, hrx, Rx.work]
    omega

/-- A step of a service that has something to do. -/
theorem Link.svcStep_work {id : ℕ} (h : Link shm s0 d) (hstep : d.svcStep id = some d') :
    d'.work shm < d.work shm := by
  have hid : id ∈ d.registered := by
    by_contra hnot
    have hempty := h.unused id hnot
    rw [Dir.svcStep, hempty] at hstep
    cases hstep
  have hsum := fun t => sum_update_work (List.mem_toFinset.mpr hid) d.svc t
  cases svcStep_move hstep with
  | @pop p rest hpc hqueue =>
    have hs := hsum ⟨rest, .first p⟩
    simp only [Service.work, hqueue, length_cons] at hs
    simp only [Dir.work, Dir.setSvc, Service.work]
    omega
  | @lock p hpc hfree =>
    have hs := hsum ⟨(d.svc id).queue, .collect (Collect.first p)⟩
    simp only [Service.work, hpc] at hs
    simp only [Dir.work, Dir.setSvc, Service.work]
    omega
  | @add c p rest hpc hleft hqueue =>
    have hs := hsum ⟨rest, .collect (c.add p)⟩
    simp only [Service.work, hqueue, length_cons] at hs
    simp only [Dir.work, Dir.setSvc, Service.work]
    omega
  | @finish c hpc hleft =>
    have hs := hsum ⟨(d.svc id).queue, .process c.received⟩
    simp only [Service.work, hpc] at hs
    simp only [Dir.work, Dir.setSvc, Service.work]
    omega
  | @process r hpc =>
    have hs := hsum ⟨(d.svc id).queue, .idle⟩
    simp only [Service.work, hpc] at hs
    simp only [Dir.work, Dir.setSvc, Service.work]
    omega

end Work

end PineVoice.Ipc
