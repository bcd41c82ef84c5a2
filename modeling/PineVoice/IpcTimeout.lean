import PineVoice.IpcExchange

/-!
# Time-outs of the sender

`ipc_channel_send` waits for the write event only as long as its caller allows, and goes on to the
mailbox in either case. A watch marks what a core has placed in its shared memory and its peer has
not copied yet. As long as no wait times out, the sender never writes where a mark is.
-/

namespace PineVoice.Ipc

open Function

section Watch

/-- What can happen next, with time-outs. -/
inductive Timed where
  /-- A step of the link. -/
  | act (a : Act)
  /-- The wait for the write event ends by its time-out. -/
  | timeout

/-- `aos_event_get` of `ipc_channel_send` gives up; the caller goes on to `ch_mutex`. -/
def Dir.timeoutStep (d : Dir) : Option Dir :=
  match d.tx with
  | .wait j => if d.writeEvt then none else some { d with tx := .lock j }
  | _ => none

/-- A step in the direction of a core, or a time-out of its sender. -/
def Sys.timedStep (shm : Side → Shm) (y : Sys) (s : Side) : Timed → Option Sys
  | .act a => y.step shm s a
  | .timeout => (y.dir s).timeoutStep.map (y.setDir s)

/-- The parts of the shared memory of a direction. -/
inductive Region where
  /-- A slot. -/
  | slot (k : ℕ)
  /-- The descriptor in the mailbox. -/
  | box
deriving DecidableEq

/-- Where a step writes. -/
def Dir.writes (d : Dir) : Timed → Option Region
  | .act .tx =>
    match d.tx with
    | .fill j i => if i < j.chunk.length then some (.slot (d.seq % blockSize)) else none
    | .put _ e i => if i < e.words.length then some .box else none
    | _ => none
  | _ => none

/-- The messages that were placed and that the peer has not copied. -/
structure Marks where
  /-- The descriptor. -/
  box : Bool
  /-- The data in the slots. -/
  slot : ℕ → Bool

/-- Nothing is left to copy. -/
def Marks.clear : Marks := ⟨false, fun _ => false⟩

/-- A message of the region is still to be copied. -/
def Marks.holds (m : Marks) : Region → Bool
  | .slot k => m.slot k
  | .box => m.box

/-- The descriptor in the mailbox. -/
def Dir.boxed (d : Dir) : Desc := Desc.ofWords ((List.range descWords).map d.mailbox)

/-- The trigger places a message; `blyoc_ipc_recv` copies the descriptor and `phy_recv` the
data. -/
def Marks.after (m : Marks) (d : Dir) : Timed → Marks
  | .act .tx =>
    match d.tx with
    | .trigger _ => ⟨true, update m.slot d.boxed.slot true⟩
    | _ => m
  | .act .rx =>
    match d.rx with
    | .get ws => if ws.length < descWords then m else { m with box := false }
    | .copy e bytes =>
      if bytes.length < e.len then m else { m with slot := update m.slot e.slot false }
    | _ => m
  | _ => m

/-- The two cores and the marks of both directions. -/
structure Watched where
  /-- The cores. -/
  sys : Sys
  /-- The marks. -/
  marks : Side → Marks

/-- A step under the watch. -/
def Watched.step (shm : Side → Shm) (w : Watched) (x : Side × Timed) : Option Watched :=
  (w.sys.timedStep shm x.1 x.2).map fun y =>
    ⟨y, update w.marks x.1 ((w.marks x.1).after (w.sys.dir x.1) x.2)⟩

/-- The step writes only where the peer has copied what was placed. -/
def Watched.Safe (w : Watched) (x : Side × Timed) : Prop :=
  ∀ r ∈ (w.sys.dir x.1).writes x.2, (w.marks x.1).holds r = false

instance (w : Watched) (x : Side × Timed) : Decidable (w.Safe x) :=
  inferInstanceAs (Decidable (∀ r ∈ (w.sys.dir x.1).writes x.2, (w.marks x.1).holds r = false))

/-- The cores before anything was sent. -/
def Sys.watched (y : Sys) : Watched := ⟨y, fun _ => Marks.clear⟩

end Watch

section Invariant

/-- The receiver has taken the read event and is not done with the descriptor. -/
def Rx.reading : Rx → ℕ
  | .lock | .get _ => 1
  | _ => 0

/-- The receiver has copied the data of the packet it is at. -/
def Rx.copied : Rx → ℕ
  | .enqueue _ => 1
  | _ => 0

/-- A descriptor was triggered and not copied. -/
def Dir.unread (d : Dir) : ℕ := d.dataIrq+d.readEvt.toNat+d.rx.reading

/-- Every mark is of a packet under way. -/
structure Marked (s0 : ℕ) (d : Dir) (m : Marks) : Prop where
  /-- The descriptor. -/
  box : m.box = true → 0 < d.unread
  /-- The slots. -/
  slot : ∀ k, m.slot k = true →
    ∃ n, d.taken+d.rx.copied ≤ n ∧ n < d.posted ∧ k = (s0+n) % blockSize

theorem marked_clear (s0 : ℕ) (d : Dir) : Marked s0 d Marks.clear := ⟨nofun, nofun⟩

theorem unread_le (d : Dir) : d.unread ≤ d.inBox := by
  have hle : d.rx.reading ≤ d.rx.token := by cases d.rx <;> simp [Rx.reading, Rx.token]
  exact Nat.add_le_add_left hle _

variable {shm : Shm} {s0 : ℕ} {d d' : Dir} {m : Marks}

/-- A step that copies nothing and takes nothing back. -/
theorem Marked.mono (h : Marked s0 d m) (hunread : d.unread ≤ d'.unread)
    (htaken : d'.taken+d'.rx.copied = d.taken+d.rx.copied) (hposted : d'.posted = d.posted) :
    Marked s0 d' m where
  box hbox := lt_of_lt_of_le (h.box hbox) hunread
  slot k hk := by
    rw [htaken, hposted]
    exact h.slot k hk

/-- The same for a step of the receiver. -/
theorem Marked.advance (h : Marked s0 d m) {old : Rx} (hrx : d.rx = old)
    (hunread : d.dataIrq+d.readEvt.toNat+old.reading ≤ d'.unread)
    (htaken : d'.taken+d'.rx.copied = d.taken+old.copied) (hposted : d'.posted = d.posted) :
    Marked s0 d' m := by
  subst hrx
  exact h.mono hunread htaken hposted

variable {j : Job} {ch ch' : Option Holder}

/-- The descriptor that the sender triggers names the slot of its packet. -/
theorem Flow.boxed_slot (h : Flow shm s0 d) (htx : d.tx = .trigger j) :
    d.boxed.slot = (s0+d.posted) % blockSize := by
  obtain ⟨⟨-, hwords⟩, -⟩ := h.atTx htx
  exact hwords 4 _ (by decide) rfl

section

variable (h : Marked s0 d m)
include h

theorem Marked.trigger (hflow : Flow shm s0 d) (htx : d.tx = .trigger j) :
    Marked s0 { d with dataIrq := d.dataIrq+1, posted := d.posted+1, tx := .unlock j }
      ⟨true, update m.slot d.boxed.slot true⟩ where
  box _ := by
    show 0 < d.dataIrq+1+d.readEvt.toNat+d.rx.reading
    omega
  slot k hk := by
    show ∃ n, d.taken+d.rx.copied ≤ n ∧ n < d.posted+1 ∧ k = (s0+n) % blockSize
    by_cases hslot : k = d.boxed.slot
    · have hcount := hflow.count
      have hle : d.rx.copied ≤ d.rx.busy := by cases d.rx <;> simp [Rx.copied, Rx.busy]
      exact ⟨d.posted, by omega, Nat.lt_succ_self _, hslot.trans (hflow.boxed_slot htx)⟩
    · have hk' : update m.slot d.boxed.slot true k = true := hk
      rw [update_of_ne hslot] at hk'
      obtain ⟨n, hn, hlt, heq⟩ := h.slot k hk'
      exact ⟨n, hn, Nat.lt_succ_of_lt hlt, heq⟩

theorem Marked.txStep (hflow : Flow shm s0 d) (hstep : d.txStep shm ch = some (d', ch')) :
    Marked s0 d' (m.after d (.act .tx)) := by
  revert hstep
  simp only [Marks.after]
  fun_cases Dir.txStep shm d ch <;> rintro ⟨⟩
  case case10 j htx =>
    simp only [htx]
    exact h.trigger hflow htx
  case case2 htx _ _ | case3 htx _ | case4 htx _ | case6 htx _ | case8 htx _ _ | case9 htx _ |
      case11 htx =>
    simp only [htx]
    exact h.mono le_rfl rfl rfl

/-- The slot of the packet that was copied is no longer marked. -/
theorem Marked.copyDone {e : Desc} {bytes : List UInt8} (hflow : Flow shm s0 d)
    (hrx : d.rx = .copy e bytes) : Marked s0 { d with rx := .enqueue (e.packet bytes) }
      { m with slot := update m.slot e.slot false } where
  box hbox := by
    have hpos := h.box hbox
    rw [Dir.unread, hrx] at hpos
    exact hpos
  slot k hk := by
    have hk' : update m.slot e.slot false k = true := hk
    by_cases hslot : k = e.slot
    · rw [hslot, update_self] at hk'
      cases hk'
    · rw [update_of_ne hslot] at hk'
      obtain ⟨n, hn, hlt, heq⟩ := h.slot k hk'
      have hge : d.taken ≤ n := (Nat.le_add_right _ _).trans hn
      obtain ⟨p, hp⟩ := hflow.at_taken (lt_of_le_of_lt hge hlt)
      have hdone := hflow.rx p hp
      rw [hrx] at hdone
      have he : e.slot = (s0+d.taken) % blockSize := congrArg Desc.slot hdone.1
      have hne : d.taken ≠ n := by
        rintro rfl
        exact hslot (heq.trans he.symm)
      exact ⟨n, lt_of_le_of_ne hge hne, hlt, heq⟩

theorem Marked.rxStep (hflow : Flow shm s0 d) (hstep : d.rxStep ch = some (d', ch')) :
    Marked s0 d' (m.after d (.act .rx)) := by
  revert hstep
  simp only [Marks.after]
  fun_cases Dir.rxStep d ch <;> rintro ⟨⟩
  case case1 hrx hevt =>
    simp only [hrx]
    refine h.advance hrx ?_ rfl rfl
    rw [hevt]
    exact le_rfl
  case case6 hrx hlt =>
    simp only [hrx, if_neg hlt]
    refine ⟨by simp, fun k hk => ?_⟩
    have hslot := h.slot k hk
    rw [hrx] at hslot
    exact hslot
  case case5 hrx hlt | case9 hrx hlt =>
    simp only [hrx, if_pos hlt]
    exact h.advance hrx le_rfl rfl rfl
  case case8 e hrx =>
    simp only [hrx]
    cases isProbe e.flag <;> exact h.advance hrx le_rfl rfl rfl
  case case10 hrx hlt =>
    simp only [hrx, if_neg hlt]
    exact h.copyDone hflow hrx
  case case3 hrx _ | case7 hrx | case11 hrx _ _ _ | case13 hrx _ =>
    simp only [hrx]
    exact h.advance hrx le_rfl rfl rfl

theorem Marked.dataStep (hstep : d.dataStep = some d') : Marked s0 d' m := by
  revert hstep
  fun_cases Dir.dataStep d <;> rintro ⟨⟩
  case case2 n hirq =>
    refine ⟨fun _ => ?_, h.slot⟩
    show 0 < n+1+d.rx.reading
    omega

theorem Marked.ackStep (hstep : d.ackStep = some d') : Marked s0 d' m := by
  unfold Dir.ackStep at hstep
  split at hstep <;> cases hstep
  exact h.mono le_rfl rfl rfl

theorem Marked.svcStep {id : ℕ} (hstep : d.svcStep id = some d') : Marked s0 d' m := by
  cases svcStep_move hstep <;> exact h.mono le_rfl rfl rfl

/-- While the sender has the token or fills a slot, it writes to no mark. -/
theorem Marked.safe (hflow : Flow shm s0 d) (t : Timed) : ∀ r ∈ d.writes t, m.holds r = false := by
  intro r hr
  unfold Dir.writes at hr
  split at hr
  · split at hr
    · rename_i j i htx
      obtain ⟨-, heq⟩ := Option.ite_none_right_eq_some.mp hr
      cases heq
      refine Bool.eq_false_iff.mpr fun hmark => ?_
      obtain ⟨n, hn, hlt, heq⟩ := h.slot _ hmark
      rw [hflow.seq_slot (by rw [htx]; rfl)] at heq
      exact hflow.slot_ne ((Nat.le_add_right _ _).trans hn) hlt heq.symm
    · rename_i j e i htx
      obtain ⟨-, heq⟩ := Option.ite_none_right_eq_some.mp hr
      cases heq
      refine Bool.eq_false_iff.mpr fun hmark => ?_
      have hbox := hflow.inBox_of_token (by rw [htx]; rfl)
      exact absurd (lt_of_lt_of_le (h.box hmark) (unread_le d)) (by omega)
    · cases hr
  · cases hr

end

end Invariant

section Runs

variable {shm : Side → Shm} {w w' : Watched} {x : Side × Timed}

/-- Both directions are in order, and so are their marks. -/
def Watched.Ok (shm : Side → Shm) (w : Watched) : Prop :=
  ∀ s, ∃ s0, Flow (shm s) s0 (w.sys.dir s) ∧ Marked s0 (w.sys.dir s) (w.marks s)

variable {y y' : Sys} {s : Side} {t : Timed}

theorem Sys.Fresh.watched_ok (h : y.Fresh) : y.watched.Ok shm :=
  fun s => ⟨(y.dir s).seq, Flow.fresh (h.dir s), marked_clear _ _⟩

/-- A service is added. -/
def Timed.adds : Timed → Bool
  | .act (.addService _) => true
  | _ => false

/-- A wait ends by its time-out. -/
def Timed.expires : Timed → Bool
  | .timeout => true
  | .act _ => false

/-- The direction of a step, which keeps the link and the marks. -/
theorem timedStep_marked {s0 : ℕ} {m : Marks} (hadd : t.adds = false) (htime : t.expires = false)
    (hflow : Flow (shm s) s0 (y.dir s)) (hm : Marked s0 (y.dir s) m)
    (hstep : y.timedStep shm s t = some y') :
    Flow (shm s) s0 (y'.dir s) ∧ Marked s0 (y'.dir s) (m.after (y.dir s) t) := by
  cases t with
  | timeout => cases htime
  | act a =>
    cases a with
    | send msg =>
      obtain ⟨hidle, -, rfl⟩ := step_send hstep
      rw [setDir_self]
      exact ⟨hflow.begin hidle msg, hm.mono le_rfl rfl rfl⟩
    | tx =>
      obtain ⟨z, hz, rfl⟩ := Option.map_eq_some_iff.mp hstep
      rw [setBoth_self]
      exact ⟨hflow.txStep hz, hm.txStep hflow hz⟩
    | rx =>
      obtain ⟨z, hz, rfl⟩ := Option.map_eq_some_iff.mp hstep
      rw [setBoth_self]
      exact ⟨hflow.rxStep hz, hm.rxStep hflow hz⟩
    | dataIrq =>
      obtain ⟨d, hd, rfl⟩ := Option.map_eq_some_iff.mp hstep
      rw [setDir_self]
      exact ⟨hflow.dataStep hd, hm.dataStep hd⟩
    | ackIrq =>
      obtain ⟨d, hd, rfl⟩ := Option.map_eq_some_iff.mp hstep
      rw [setDir_self]
      exact ⟨hflow.ackStep hd, hm.ackStep hd⟩
    | svc id =>
      obtain ⟨d, hd, rfl⟩ := Option.map_eq_some_iff.mp hstep
      rw [setDir_self]
      exact ⟨hflow.svcStep hd, hm.svcStep hd⟩
    | addService id => cases hadd

theorem timedStep_other (hstep : y.timedStep shm s t = some y')
    : y'.dir s.other = y.dir s.other := by
  cases t with
  | act a => exact step_other hstep
  | timeout =>
    obtain ⟨d, -, rfl⟩ := Option.map_eq_some_iff.mp hstep
    exact update_of_ne (other_ne s) _ _

theorem Watched.Ok.step (h : w.Ok shm) (hadd : x.2.adds = false) (htime : x.2.expires = false)
    (hstep : w.step shm x = some w') : w'.Ok shm := by
  obtain ⟨y, hy, rfl⟩ := Option.map_eq_some_iff.mp hstep
  intro s
  obtain ⟨s0, hflow, hm⟩ := h s
  refine ⟨s0, ?_⟩
  rcases eq_or_ne s x.1 with rfl | hs
  · dsimp only
    rw [update_self]
    exact timedStep_marked hadd htime hflow hm hy
  · rw [eq_other hs] at hflow hm ⊢
    dsimp only
    rw [timedStep_other hy, update_of_ne (other_ne x.1)]
    exact ⟨hflow, hm⟩

theorem Watched.Ok.safe (h : w.Ok shm) (x : Side × Timed) : w.Safe x := by
  obtain ⟨s0, hflow, hm⟩ := h x.1
  exact hm.safe hflow x.2

/-- As long as no wait ends by its time-out and no service is added, a core writes into a
slot or the mailbox only after its peer has copied what was placed there before. -/
theorem writes_after_copy {y : Sys} {xs : List (Side × Timed)} (hfresh : y.Fresh)
    (hadd : ∀ x ∈ xs, x.2.adds = false) (htime : ∀ x ∈ xs, x.2.expires = false) :
    Transition.Along (Watched.step shm) Watched.Safe y.watched xs := by
  have halong : Transition.Along (Watched.step shm)
      (fun _ x => x.2.adds = false ∧ x.2.expires = false) y.watched xs :=
    Transition.along_of_forall_mem fun x hx => ⟨hadd x hx, htime x hx⟩
  refine Transition.along_keeps (P := Watched.Ok shm) (fun z x z' hx hz hstep => ?_)
    (fun z x _ hz => hz.safe x) halong hfresh.watched_ok
  exact hz.step hx.1 hx.2 hstep

/-- A run of the link is a run without time-outs. -/
def timed (xs : List (Side × Act)) : List (Side × Timed) := xs.map fun x => (x.1, .act x.2)

theorem writes_after_copy_sample : sampleSys.Fresh ∧
    ((Transition.run (Watched.step sampleShm) sampleSys.watched (timed sampleRun)).map fun w =>
      (w.sys.dir .a).processed 1) = some [(4, [5, 6, 7]), (9, [5])] ∧
    Transition.Along (Watched.step sampleShm) Watched.Safe sampleSys.watched
      (timed sampleRun) := by
  refine ⟨sampleSys_fresh, by decide +kernel, writes_after_copy sampleSys_fresh ?_ ?_⟩
  · decide +kernel
  · decide +kernel

end Runs

section Expiry

/-- A message is sent. -/
def sampleSend : List (Side × Timed) :=
  timed ((Side.a, Act.send sampleMsg) :: List.replicate 30 (Side.a, Act.tx))

/-- A message is sent by a task that gives up waiting for the write event. -/
def sampleGiveUp : List (Side × Timed) :=
  timed ((Side.a, Act.send sampleMsg) :: List.replicate 18 (Side.a, Act.tx)) ++
    (Side.a, .timeout) :: timed (List.replicate 11 (Side.a, Act.tx))

/-- A message and three that give up, while the peer does nothing, and a fifth. -/
def sampleFive : List (Side × Timed) :=
  sampleSend ++ sampleGiveUp ++ sampleGiveUp ++ sampleGiveUp ++
    timed [(Side.a, Act.send sampleMsg)]

/-- The second message is written over the descriptor of the first, and the fifth over its
data. -/
theorem overwrites_uncopied : sampleSys.Fresh ∧ (∀ x ∈ sampleFive, x.2.adds = false) ∧
    ¬Transition.Along (Watched.step sampleShm) Watched.Safe sampleSys.watched
      (sampleSend ++ sampleGiveUp) ∧
    ((Transition.run (Watched.step sampleShm) sampleSys.watched sampleFive).map fun w =>
      ((w.sys.dir .a).writes (.act .tx), (w.marks .a).slot 2)) =
        some (some (.slot 2), true) :=
  ⟨sampleSys_fresh, by decide +kernel, by decide +kernel, by decide +kernel⟩

end Expiry

end PineVoice.Ipc
