import PineVoice.IpcLink

/-!
# Packets cross the link unchanged

The permission to use the mailbox is a token, which is at any time in exactly one place. The
receiver acknowledges a packet before it copies the data, so the sender can be two packets ahead,
which is less than the number of slots.
-/

namespace PineVoice.Ipc

open Function List

/-- A memory starts with some of the items of a list. -/
def Filled {α : Type} (mem : ℕ → α) (xs : List α) (n : ℕ) : Prop :=
  ∀ i x, i < n → xs[i]? = some x → mem i = x

section Filled

variable {α : Type} {mem : ℕ → α} {xs : List α}

theorem Filled.zero (mem : ℕ → α) (xs : List α) : Filled mem xs 0 :=
  fun i _ hi => absurd hi (Nat.not_lt_zero i)

variable {n : ℕ}

theorem Filled.update {x : α} (h : Filled mem xs n) (hx : xs[n]? = some x) :
    Filled (update mem n x) xs (n+1) := by
  intro i y hi hy
  by_cases hin : i = n
  · subst hin
    rw [update_self]
    exact Option.some.inj (hx.symm.trans hy)
  · rw [update_of_ne hin]
    exact h i y (by omega) hy

/-- Everything is there once the end is reached. -/
theorem Filled.all (h : Filled mem xs n) (hn : xs[n]? = none) : Filled mem xs xs.length := by
  have hlen := List.getElem?_eq_none_iff.mp hn
  exact fun i x hi hx => h i x (by omega) hx

/-- The next item is read as it was stored. -/
theorem Filled.read (h : Filled mem xs xs.length) (hn : n < xs.length) :
    xs.take n ++ [mem n] = xs.take (n+1) := by
  rw [take_add_one, getElem?_eq_getElem hn, h n _ hn (getElem?_eq_getElem hn)]
  rfl

end Filled

section Phases

/-- The sender has the token. -/
def Tx.token : Tx → ℕ
  | .lock _ | .put _ _ _ | .trigger _ => 1
  | _ => 0

/-- The sender has counted the packet that is not yet triggered. -/
def Tx.ahead : Tx → ℕ
  | .put _ _ _ | .trigger _ => 1
  | _ => 0

/-- The receiver has the token. -/
def Rx.token : Rx → ℕ
  | .lock | .get _ | .ack _ => 1
  | _ => 0

/-- The receiver has a packet that it acknowledged. -/
def Rx.busy : Rx → ℕ
  | .unlock _ | .copy _ _ | .enqueue _ => 1
  | _ => 0

/-- The packets that the sender still has to trigger. -/
def Tx.pending (shm : Shm) : Tx → List Packet
  | .idle => []
  | .fill j _ | .wait j | .lock j | .put j _ _ | .trigger j =>
    j.msg.packet shm j.chunk :: j.msg.restPackets shm j.rest
  | .unlock j => j.msg.restPackets shm j.rest

theorem pending_nextTx {shm : Shm} {j : Job} :
    (nextTx shm j).pending shm = j.msg.restPackets shm j.rest := by
  unfold nextTx
  split_ifs with hrest
  · rw [hrest, restPackets_nil]
    rfl
  · exact (restPackets_cons hrest).symm

end Phases

/-- All packets of the messages sent. -/
def Dir.packets (shm : Shm) (d : Dir) : List Packet := d.sent.flatMap (Message.packets shm)

/-- A packet was triggered and not acknowledged. -/
def Dir.inBox (d : Dir) : ℕ := d.dataIrq+d.readEvt.toNat+d.rx.token

/-- The descriptor of a packet, by its number. -/
def descAt (s0 n : ℕ) (p : Packet) : Desc :=
  ⟨p.flag, p.serviceId, p.command, (s0+n) % 2^32, (s0+n) % blockSize, p.data.length, p.sem⟩

/-- What the sender has done for its packet. -/
def TxDone (shm : Shm) (s0 : ℕ) (d : Dir) : Tx → Prop
  | .fill j i => Filled (d.slots ((s0+d.posted) % blockSize)) j.chunk i
  | .wait j | .lock j =>
    Filled (d.slots ((s0+d.posted) % blockSize)) j.chunk j.chunk.length
  | .put j e i =>
    Filled (d.slots ((s0+d.posted) % blockSize)) j.chunk j.chunk.length ∧
      e = descAt s0 d.posted (j.msg.packet shm j.chunk) ∧ Filled d.mailbox e.words i
  | .trigger j =>
    Filled (d.slots ((s0+d.posted) % blockSize)) j.chunk j.chunk.length ∧
      Filled d.mailbox (descAt s0 d.posted (j.msg.packet shm j.chunk)).words descWords
  | .idle | .unlock _ => True

variable {shm : Shm} {d : Dir}

/-- Only the slots, the mailbox and the counter matter to the sender. -/
theorem TxDone.congr {s0 : ℕ} {d' : Dir} {t : Tx} (h : TxDone shm s0 d t)
    (hslots : d'.slots = d.slots) (hmailbox : d'.mailbox = d.mailbox)
    (hposted : d'.posted = d.posted) : TxDone shm s0 d' t := by
  cases t <;> simp only [TxDone, hslots, hmailbox, hposted] <;> exact h

/-- What the receiver has of the packet that it is at. -/
def RxDone (s0 n : ℕ) (p : Packet) : Rx → Prop
  | .get ws => ws.length ≤ descWords ∧ ws = (descAt s0 n p).words.take ws.length
  | .ack e | .unlock e => e = descAt s0 n p
  | .copy e bytes => e = descAt s0 n p ∧ bytes.length ≤ p.data.length ∧
    bytes = p.data.take bytes.length
  | .enqueue q => q = p
  | .wait | .lock => True

/-- The state of the link: the token, the counters, and what the memory holds of the
packets that are under way. -/
structure Flow (shm : Shm) (s0 : ℕ) (d : Dir) : Prop where
  /-- There is one token. -/
  token : d.writeEvt.toNat+d.tx.token+d.inBox+d.ackIrq = 1
  /-- The packets under way. -/
  count : d.posted = d.taken+d.inBox+d.rx.busy
  /-- The counter of the sender. -/
  seq : d.seq = (s0+d.posted+d.tx.ahead) % 2^32
  /-- Only packets of messages are triggered. -/
  posted_le : d.posted ≤ (d.packets shm).length
  /-- The packets not triggered are those the sender is at. -/
  pending : (d.packets shm).drop d.posted = d.tx.pending shm
  /-- What the sender has done. -/
  tx : TxDone shm s0 d d.tx
  /-- The slots hold the packets that are under way. -/
  slots : ∀ n p, d.taken ≤ n → n < d.posted → (d.packets shm)[n]? = some p →
    Filled (d.slots ((s0+n) % blockSize)) p.data p.data.length
  /-- The mailbox holds the last packet. -/
  mailbox : ∀ n p, d.posted = n+1 → 0 < d.inBox → (d.packets shm)[n]? = some p →
    Filled d.mailbox (descAt s0 n p).words descWords
  /-- The receiver is at the first packet it has not handed on. -/
  rx : ∀ p, (d.packets shm)[d.taken]? = some p → RxDone s0 d.taken p d.rx

/-- A fresh link. -/
theorem Flow.fresh (h : d.Fresh) : Flow shm d.seq d where
  token := by
    simp only [Dir.inBox, h.writeEvt, h.tx, h.dataIrq, h.readEvt, h.rx, h.ackIrq]
    rfl
  count := by
    simp only [Dir.inBox, h.posted, h.taken, h.dataIrq, h.readEvt, h.rx]
    rfl
  seq := by
    rw [h.posted, h.tx]
    exact (Nat.mod_eq_of_lt h.seq_lt).symm
  posted_le := by rw [h.posted]; exact Nat.zero_le _
  pending := by
    rw [Dir.packets, h.sent, h.tx]
    exact drop_nil
  tx := by
    rw [h.tx]
    trivial
  slots := by
    intro n p _ hn
    rw [h.posted] at hn
    exact absurd hn (Nat.not_lt_zero n)
  mailbox := by
    intro n p hn
    rw [h.posted] at hn
    exact absurd hn.symm (Nat.succ_ne_zero n)
  rx := by
    intro p _
    rw [h.rx]
    trivial

section Sender

variable {shm : Shm} {s0 : ℕ} {d d' : Dir}

/-- The packet the sender is at. -/
theorem Flow.current (h : Flow shm s0 d) {p : Packet} {ps : List Packet}
    (hp : d.tx.pending shm = p :: ps) :
    (d.packets shm)[d.posted]? = some p ∧ (d.packets shm).drop (d.posted+1) = ps := by
  have hdrop := h.pending
  rw [hp] at hdrop
  have hget : ((d.packets shm).drop d.posted)[0]? = some p := by rw [hdrop]; rfl
  rw [getElem?_drop] at hget
  refine ⟨hget, ?_⟩
  rw [← drop_drop, hdrop]
  rfl

theorem Flow.inBox_of_token (h : Flow shm s0 d) (htoken : d.tx.token = 1) : d.inBox = 0 := by
  have htok := h.token
  omega

/-- The slot being filled is none of those under way. -/
theorem Flow.slot_ne (h : Flow shm s0 d) {n : ℕ} (hn : d.taken ≤ n) (hlt : n < d.posted) :
    (s0+n) % blockSize ≠ (s0+d.posted) % blockSize := by
  have hcount := h.count
  have htok := h.token
  have hbusy : d.rx.busy ≤ 1 := by cases d.rx <;> simp [Rx.busy]
  simp only [blockSize]
  omega

theorem Flow.seq_slot (h : Flow shm s0 d) (ha : d.tx.ahead = 0) :
    d.seq % blockSize = (s0+d.posted) % blockSize := by
  have hseq := h.seq
  simp only [blockSize]
  omega

variable {t : Tx} {j : Job} {i : ℕ} {e : Desc}

section

variable (h : Flow shm s0 d)
include h

/-- The link while the sender is at a given point. -/
theorem Flow.atTx (htx : d.tx = t) :
    TxDone shm s0 d t ∧ d.writeEvt.toNat+t.token+d.inBox+d.ackIrq = 1 ∧
      d.seq = (s0+d.posted+t.ahead) % 2^32 ∧ (d.packets shm).drop d.posted = t.pending shm := by
  subst htx
  exact ⟨h.tx, h.token, h.seq, h.pending⟩

/-- The sender goes on without touching anything shared. -/
theorem Flow.setTx {old : Tx} (htx : d.tx = old) (htoken : t.token = old.token)
    (hahead : t.ahead = old.ahead) (hpending : t.pending shm = old.pending shm)
    (hdone : TxDone shm s0 d t) : Flow shm s0 { d with tx := t } := by
  rcases h.atTx htx with ⟨-, htoken', hseq, hpending'⟩
  rw [← htoken] at htoken'
  rw [← hahead] at hseq
  rw [← hpending] at hpending'
  exact
    { h with
      token := htoken'
      seq := hseq
      pending := hpending'
      tx := hdone.congr rfl rfl rfl }

/-- A byte is written into the slot of the sender. -/
theorem Flow.fill {b : UInt8} (htx : d.tx = .fill j i) (hb : j.chunk[i]? = some b) :
    Flow shm s0 { d with slots := setSlot d.slots (d.seq % blockSize) i b, tx := .fill j (i+1) } := by
  have hslot := h.seq_slot (by rw [htx]; rfl)
  rcases h.atTx htx with ⟨hdone, htoken, hseq, hpending⟩
  refine ⟨htoken, h.count, hseq, h.posted_le, hpending, ?_, ?_, h.mailbox, h.rx⟩
  · show Filled (setSlot d.slots (d.seq % blockSize) i b ((s0+d.posted) % blockSize)) _ _
    rw [hslot, setSlot, update_self]
    exact Filled.update hdone hb
  · intro n p hn hlt hp
    show Filled (setSlot d.slots (d.seq % blockSize) i b ((s0+n) % blockSize)) _ _
    rw [hslot, setSlot, update_of_ne (h.slot_ne hn hlt)]
    exact h.slots n p hn hlt hp

/-- The sender takes the write event. -/
theorem Flow.takeWrite (htx : d.tx = .wait j) (hevt : d.writeEvt = true) :
    Flow shm s0 { d with writeEvt := false, tx := .lock j } := by
  rcases h.atTx htx with ⟨hdone, htoken, hseq, hpending⟩
  rw [hevt] at htoken
  have htaken : 0+1+d.inBox+d.ackIrq = 1 := by
    simp only [Bool.toNat_true] at htoken
    omega
  exact { h with token := htaken, seq := hseq, pending := hpending, tx := hdone }

/-- The sender counts its packet and starts to write the descriptor. -/
theorem Flow.startPut (htx : d.tx = .lock j) :
    Flow shm s0 { d with seq := (d.seq+1) % 2^32, tx := .put j (d.desc shm j) 0 } := by
  rcases h.atTx htx with ⟨hdone, htoken, hseq, hpending⟩
  have hnext : (d.seq+1) % 2^32 = (s0+d.posted+1) % 2^32 := by
    rw [hseq]
    exact Nat.mod_add_mod _ _ _
  refine { h with token := htoken, seq := hnext, pending := hpending, tx := ⟨hdone, ?_, ?_⟩ }
  · have hslot := h.seq_slot (by rw [htx]; rfl)
    rw [Dir.desc, hslot, hseq]
    rfl
  · exact Filled.zero _ _

/-- A word of the descriptor is written. -/
theorem Flow.put {w : ℕ} (htx : d.tx = .put j e i) (hw : e.words[i]? = some w) :
    Flow shm s0 { d with mailbox := update d.mailbox i w, tx := .put j e (i+1) } := by
  have hbox := h.inBox_of_token (by rw [htx]; rfl)
  rcases h.atTx htx with ⟨⟨hslot, he, hfilled⟩, htoken, hseq, hpending⟩
  exact
    { h with
      token := htoken
      seq := hseq
      pending := hpending
      tx := ⟨hslot, he, hfilled.update hw⟩
      mailbox := fun n p _ hpos => absurd hbox (ne_of_gt hpos) }

/-- The descriptor is complete. -/
theorem Flow.putDone (htx : d.tx = .put j e i) (hw : e.words[i]? = none) :
    Flow shm s0 { d with tx := .trigger j } := by
  rcases h.atTx htx with ⟨⟨hslot, he, hfilled⟩, -⟩
  refine h.setTx htx rfl rfl rfl ⟨hslot, ?_⟩
  rw [← he]
  exact hfilled.all hw

/-- The data interrupt is triggered. -/
theorem Flow.trigger (htx : d.tx = .trigger j) :
    Flow shm s0 { d with dataIrq := d.dataIrq+1, posted := d.posted+1, tx := .unlock j } := by
  obtain ⟨hcur, hnext⟩ := h.current (by rw [htx]; rfl)
  rcases h.atTx htx with ⟨⟨hslot, hwords⟩, htoken, hseq, -⟩
  have hbox' : d.dataIrq+1+d.readEvt.toNat+d.rx.token = d.inBox+1 := by
    rw [Dir.inBox]
    omega
  refine ⟨?_, ?_, hseq, ?_, hnext, trivial, ?_, ?_, h.rx⟩
  · show d.writeEvt.toNat+0+(d.dataIrq+1+d.readEvt.toNat+d.rx.token)+d.ackIrq = 1
    simp only [Tx.token] at htoken
    omega
  · show d.posted+1 = d.taken+(d.dataIrq+1+d.readEvt.toNat+d.rx.token)+d.rx.busy
    have hcount := h.count
    omega
  · exact (List.getElem?_eq_some_iff.mp hcur).1
  · intro n p hn hlt hp
    rcases Nat.lt_succ_iff_lt_or_eq.mp hlt with hlt' | rfl
    · exact h.slots n p hn hlt' hp
    · cases hcur.symm.trans hp
      exact hslot
  · intro n p hn _ hp
    have hpn : d.posted = n := Nat.succ.inj hn
    subst hpn
    cases hcur.symm.trans hp
    exact hwords

/-- Every step of the sender keeps the link. -/
theorem Flow.txStep {ch ch' : Option Holder} (hstep : d.txStep shm ch = some (d', ch')) :
    Flow shm s0 d' := by
  revert hstep
  fun_cases Dir.txStep shm d ch <;> rintro ⟨⟩
  case case2 htx b hb => exact h.fill htx hb
  case case3 htx hb => exact h.setTx htx rfl rfl rfl (Filled.all (h.atTx htx).1 hb)
  case case4 htx hevt => exact h.takeWrite htx hevt
  case case6 htx _ => exact h.startPut htx
  case case8 htx w hw => exact h.put htx hw
  case case9 htx hw => exact h.putDone htx hw
  case case10 htx => exact h.trigger htx
  case case11 j htx =>
    have hnext : ∀ t, t = nextTx shm j → t.token = 0 ∧ t.ahead = 0 ∧ TxDone shm s0 d t := by
      rintro t rfl
      unfold nextTx
      split_ifs
      · exact ⟨rfl, rfl, trivial⟩
      · exact ⟨rfl, rfl, Filled.zero _ _⟩
    obtain ⟨htoken, hahead, hdone⟩ := hnext _ rfl
    exact h.setTx htx htoken hahead pending_nextTx hdone

end

end Sender

section Receiver

variable {shm : Shm} {s0 : ℕ} {d d' : Dir}

section

variable (h : Flow shm s0 d)
include h

/-- The receiver goes on without touching anything shared. -/
theorem Flow.setRx {old r : Rx} (hrx : d.rx = old) (htoken : r.token = old.token)
    (hbusy : r.busy = old.busy)
    (hdone : ∀ p, (d.packets shm)[d.taken]? = some p → RxDone s0 d.taken p r) :
    Flow shm s0 { d with rx := r } := by
  have hbox : Dir.inBox { d with rx := r } = d.inBox := by
    show d.dataIrq+d.readEvt.toNat+r.token = d.inBox
    rw [htoken, ← hrx]
    rfl
  refine ⟨?_, ?_, h.seq, h.posted_le, h.pending, h.tx.congr rfl rfl rfl, h.slots, ?_, hdone⟩
  · rw [hbox]
    exact h.token
  · rw [hbox]
    rw [hbusy, ← hrx]
    exact h.count
  · intro n p hn hpos
    rw [hbox] at hpos
    exact h.mailbox n p hn hpos

/-- A change of the events that keeps what is in the box. -/
theorem Flow.events {w r : Bool} {di ai : ℕ} {x : Rx}
    (htoken : w.toNat+d.tx.token+(di+r.toNat+x.token)+ai = 1)
    (hcount : d.posted = d.taken+(di+r.toNat+x.token)+x.busy)
    (hbox : 0 < di+r.toNat+x.token → 0 < d.inBox)
    (hdone : ∀ p, (d.packets shm)[d.taken]? = some p → RxDone s0 d.taken p x) :
    Flow shm s0 { d with writeEvt := w, readEvt := r, dataIrq := di, ackIrq := ai, rx := x } := by
  refine ⟨htoken, hcount, h.seq, h.posted_le, h.pending, h.tx.congr rfl rfl rfl, h.slots, ?_, hdone⟩
  intro n p hn hpos
  exact h.mailbox n p hn (hbox hpos)

theorem Flow.dataStep (hstep : d.dataStep = some d') : Flow shm s0 d' := by
  revert hstep
  fun_cases Dir.dataStep d <;> rintro ⟨⟩
  case case2 n hirq =>
    have htoken := h.token
    have hcount := h.count
    simp only [Dir.inBox] at htoken hcount
    exact h.events (w := d.writeEvt) (r := true) (x := d.rx)
      (by simp only [Bool.toNat_true]; omega) (by simp only [Bool.toNat_true]; omega)
      (fun _ => by simp only [Dir.inBox]; omega) h.rx

theorem Flow.ackStep (hstep : d.ackStep = some d') : Flow shm s0 d' := by
  revert hstep
  fun_cases Dir.ackStep d <;> rintro ⟨⟩
  case case2 n hirq =>
    have htoken := h.token
    have hcount := h.count
    simp only [Dir.inBox] at htoken hcount
    exact h.events (w := true) (r := d.readEvt) (x := d.rx)
      (by simp only [Bool.toNat_true]; omega) hcount (fun hpos => hpos) h.rx

/-- The receiver takes the read event. -/
theorem Flow.takeRead (hrx : d.rx = .wait) (hevt : d.readEvt = true) :
    Flow shm s0 { d with readEvt := false, rx := .lock } := by
  have htoken := h.token
  have hcount := h.count
  simp only [Dir.inBox, hrx, hevt, Rx.busy, Bool.toNat_true] at htoken hcount
  refine h.events (w := d.writeEvt) (r := false) (x := .lock) ?_ ?_ ?_ fun _ _ => trivial
  · simp only [Rx.token, Bool.toNat_false]
    omega
  · simp only [Rx.token, Rx.busy, Bool.toNat_false]
    omega
  · intro _
    simp only [Dir.inBox, hevt, Bool.toNat_true]
    omega

end

variable {e : Desc} {ws : List ℕ} {bytes : List UInt8} {p : Packet}

/-- The receiver acknowledges the packet it has read. -/
theorem Flow.acknowledge (h : Flow shm s0 d) (hrx : d.rx = .ack e) :
    Flow shm s0 { d with ackIrq := d.ackIrq+1, rx := .unlock e } := by
  have htoken := h.token
  have hcount := h.count
  have hdone := h.rx
  simp only [Dir.inBox, hrx, Rx.token, Rx.busy] at htoken hcount hdone
  refine h.events (w := d.writeEvt) (r := d.readEvt) (x := .unlock e) ?_ ?_ ?_ hdone
  · simp only [Rx.token]
    omega
  · simp only [Rx.token, Rx.busy]
    omega
  · intro _
    simp only [Dir.inBox, hrx, Rx.token]
    omega

/-- While the receiver has the token, its packet is the last one triggered. -/
theorem Flow.last (h : Flow shm s0 d) (htoken : d.rx.token = 1) (hbusy : d.rx.busy = 0) :
    d.posted = d.taken+1 ∧ 0 < d.inBox := by
  have htok := h.token
  have hcount := h.count
  simp only [Dir.inBox] at htok hcount ⊢
  omega

/-- The packet the receiver is at. -/
theorem Flow.at_taken (h : Flow shm s0 d) (hlt : d.taken < d.posted) :
    ∃ p, (d.packets shm)[d.taken]? = some p :=
  ⟨_, getElem?_eq_getElem (lt_of_lt_of_le hlt h.posted_le)⟩

theorem descAt_words_length (s0 n : ℕ) (p : Packet) : (descAt s0 n p).words.length = descWords :=
  rfl

theorem ofWords_words (e : Desc) : Desc.ofWords e.words = e := rfl

/-- Reading the mailbox word by word. -/
theorem Flow.get (h : Flow shm s0 d) (hrx : d.rx = .get ws) (hlt : ws.length < descWords) :
    Flow shm s0 { d with rx := .get (ws ++ [d.mailbox ws.length]) } := by
  have hdone := h.rx
  rw [hrx] at hdone
  obtain ⟨hlast, hpos⟩ := h.last (by rw [hrx]; rfl) (by rw [hrx]; rfl)
  refine h.setRx hrx rfl rfl fun p hp => ?_
  obtain ⟨-, hws⟩ := hdone p hp
  have hfilled := h.mailbox d.taken p hlast hpos hp
  have hread := hfilled.read (n := ws.length) hlt
  rw [← hws] at hread
  refine ⟨by rw [length_append]; exact hlt, ?_⟩
  rw [hread, length_take, min_eq_left hlt]

/-- The descriptor that was read. -/
theorem Flow.getDone (h : Flow shm s0 d) (hrx : d.rx = .get ws) (hge : ¬ws.length < descWords)
    : Flow shm s0 { d with rx := .ack (Desc.ofWords ws) } := by
  have hdone := h.rx
  rw [hrx] at hdone
  refine h.setRx hrx rfl rfl fun p hp => ?_
  obtain ⟨hle, hws⟩ := hdone p hp
  have hlen : ws.length = (descAt s0 d.taken p).words.length := by
    rw [descAt_words_length]
    omega
  rw [hlen, take_length] at hws
  show Desc.ofWords ws = descAt s0 d.taken p
  rw [hws, ofWords_words]

/-- Copying the data byte by byte. -/
theorem Flow.copy (h : Flow shm s0 d) (hrx : d.rx = .copy e bytes) (hlt : bytes.length < e.len) :
    Flow shm s0 { d with rx := .copy e (bytes ++ [d.slots e.slot bytes.length]) } := by
  have hdone := h.rx
  have hcount := h.count
  rw [hrx] at hdone hcount
  refine h.setRx hrx rfl rfl fun p hp => ?_
  obtain ⟨rfl, -, hbytes⟩ := hdone p hp
  have hfilled := h.slots d.taken p le_rfl (by simp only [Rx.busy] at hcount; omega) hp
  have hread := hfilled.read (n := bytes.length) hlt
  rw [← hbytes] at hread
  refine ⟨rfl, by rw [length_append]; exact hlt, ?_⟩
  show bytes ++ [d.slots ((s0+d.taken) % blockSize) bytes.length] = _
  rw [hread, length_append]
  rfl

/-- The packet that was copied. -/
theorem Flow.copyDone (h : Flow shm s0 d) (hrx : d.rx = .copy e bytes) (hge : ¬bytes.length < e.len)
    : Flow shm s0 { d with rx := .enqueue (e.packet bytes) } := by
  have hdone := h.rx
  rw [hrx] at hdone
  refine h.setRx hrx rfl rfl fun p hp => ?_
  obtain ⟨rfl, hle, hbytes⟩ := hdone p hp
  have hlen : bytes.length = p.data.length := le_antisymm hle (Nat.le_of_not_lt hge)
  rw [hlen, take_length] at hbytes
  rw [hbytes]
  rfl

theorem mem_dir_packets (hp : p ∈ d.packets shm) : ∃ m ∈ d.sent, ∃ data, p = m.packet shm data := by
  obtain ⟨m, hm, hpm⟩ := List.mem_flatMap.mp hp
  exact ⟨m, hm, mem_packets hpm⟩

section

variable (h : Flow shm s0 d)
include h

/-- The receiver turns to the data. -/
theorem Flow.release (hrx : d.rx = .unlock e) :
    Flow shm s0 { d with rx := if isProbe e.flag then .wait else .copy e [] } := by
  have hdone := h.rx
  have hcount := h.count
  rw [hrx] at hdone hcount
  obtain ⟨p, hp⟩ := h.at_taken (by simp only [Rx.busy] at hcount; omega)
  have he : e = descAt s0 d.taken p := hdone p hp
  obtain ⟨m, -, data, hpm⟩ := mem_dir_packets (mem_of_getElem? hp)
  have hflag : isProbe e.flag = false := by
    rw [he, hpm]
    exact isProbe_flag m.kind (m.cached || shm.cache)
  rw [hflag]
  refine h.setRx hrx rfl rfl fun q hq => ?_
  exact ⟨hdone q hq, Nat.zero_le _, rfl⟩

/-- The packet is handed on, whatever happens to the services. -/
theorem Flow.handOn (hrx : d.rx = .enqueue p) (svc : ℕ → Service) :
    Flow shm s0 { d with svc := svc, rx := .wait, taken := d.taken+1 } := by
  have htoken := h.token
  have hcount := h.count
  simp only [Dir.inBox, hrx, Rx.token, Rx.busy] at htoken hcount
  refine ⟨htoken, ?_, h.seq, h.posted_le, h.pending, h.tx.congr rfl rfl rfl, ?_, ?_,
    fun _ _ => trivial⟩
  · show d.posted = d.taken+1+(d.dataIrq+d.readEvt.toNat+0)+0
    omega
  · intro n q hn
    exact h.slots n q (Nat.le_of_succ_le hn)
  · intro n q hn hpos
    refine h.mailbox n q hn ?_
    simp only [Dir.inBox, hrx]
    exact hpos

/-- The packet that is handed on. -/
theorem Flow.handed (hrx : d.rx = .enqueue p) : (d.packets shm)[d.taken]? = some p := by
  have hdone := h.rx
  have hcount := h.count
  rw [hrx] at hdone hcount
  obtain ⟨q, hq⟩ := h.at_taken (by simp only [Rx.busy] at hcount; omega)
  rw [hq, show p = q from hdone q hq]

/-- Every step of the receiver keeps the link. -/
theorem Flow.rxStep {ch ch' : Option Holder} (hstep : d.rxStep ch = some (d', ch')) :
    Flow shm s0 d' := by
  revert hstep
  fun_cases Dir.rxStep d ch <;> rintro ⟨⟩
  case case1 hrx hevt => exact h.takeRead hrx hevt
  case case3 hrx _ => exact h.setRx hrx rfl rfl fun _ _ => ⟨Nat.zero_le _, rfl⟩
  case case5 hrx hlt => exact h.get hrx hlt
  case case6 hrx hlt => exact h.getDone hrx hlt
  case case7 hrx => exact h.acknowledge hrx
  case case8 hrx => exact h.release hrx
  case case9 hrx hlt => exact h.copy hrx hlt
  case case10 hrx hlt => exact h.copyDone hrx hlt
  case case11 hrx _ _ _ => exact h.handOn hrx _
  case case13 hrx _ => exact h.handOn hrx d.svc

/-- The services and the history do not matter to the link. -/
theorem Flow.frame (svc : ℕ → Service) (mutex : Option ℕ) (delivered : ℕ → List Received)
    (registered : List ℕ) :
    Flow shm s0 { d with
      svc := svc, rxMutex := mutex, delivered := delivered, registered := registered } :=
  { h with tx := h.tx.congr rfl rfl rfl }

/-- Every step of a service keeps the link. -/
theorem Flow.svcStep {id : ℕ} (hstep : d.svcStep id = some d') : Flow shm s0 d' := by
  cases svcStep_move hstep with
  | pop | add => exact h.frame _ d.rxMutex d.delivered d.registered
  | lock | finish => exact h.frame _ _ d.delivered d.registered
  | process => exact h.frame _ d.rxMutex _ d.registered

end

theorem packets_begin (shm : Shm) (d : Dir) (m : Message) :
    (d.begin shm m).packets shm = d.packets shm ++ m.packets shm := by
  show (d.sent ++ [m]).flatMap _ = _
  rw [flatMap_append, flatMap_singleton]
  rfl

/-- A message is added when no task sends. -/
theorem Flow.begin (h : Flow shm s0 d) (htx : d.tx = .idle) (m : Message) :
    Flow shm s0 (d.begin shm m) := by
  have htoken := h.token
  have hseq := h.seq
  have hpending := h.pending
  have hposted := h.posted_le
  rw [htx] at htoken hseq hpending
  have hall : d.posted = (d.packets shm).length :=
    le_antisymm hposted (List.drop_eq_nil_iff.mp hpending)
  have hpackets := packets_begin shm d m
  have hold : ∀ n p, n < d.posted → ((d.begin shm m).packets shm)[n]? = some p →
      (d.packets shm)[n]? = some p := by
    intro n p hn hp
    rwa [hpackets, getElem?_append_left (hall ▸ hn)] at hp
  refine ⟨htoken, h.count, hseq, ?_, ?_, Filled.zero _ _, ?_, ?_, ?_⟩
  · rw [hpackets, length_append]
    exact hposted.trans (Nat.le_add_right _ _)
  · rw [hpackets]
    show (d.packets shm ++ m.packets shm).drop d.posted = m.packets shm
    rw [hall, drop_left]
  · intro n p hn hlt hp
    exact h.slots n p hn hlt (hold n p hlt hp)
  · intro n p hn hpos hp
    exact h.mailbox n p hn hpos (hold n p (hn ▸ Nat.lt_succ_self n) hp)
  · intro p hp
    show RxDone s0 d.taken p d.rx
    have hcount := h.count
    by_cases hlt : d.taken < d.posted
    · exact h.rx p (hold d.taken p hlt hp)
    · have hidle : d.rx.token = 0 ∧ d.rx.busy = 0 := by
        simp only [Dir.inBox] at hcount
        omega
      cases hrx : d.rx <;> rw [hrx] at hidle <;> simp only [Rx.token, Rx.busy] at hidle
      · trivial
      all_goals omega

end Receiver

end PineVoice.Ipc
