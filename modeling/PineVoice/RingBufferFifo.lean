import PineVoice.RingBuffer

/-!
# When the ring buffer is a queue

The numbers of bytes that were published and freed only grow, and the indices are these numbers
modulo the size, or one past the last byte for a moment. A reader that has taken the last byte
while `widx` is not yet set back finds a full buffer. A writer that computes the space a second
time may find more than it asked for.
-/

namespace PineVoice.RingBuffer

open Transition Circular List

/-- An index for a number of bytes: it may be one past the last byte. -/
def Stands (n count idx : ℕ) : Prop := idx ≤ n ∧ idx % n = count % n

section Indices

variable {n r w R W : ℕ}

theorem Stands.eq_mod (h : Stands n W w) (hne : w ≠ n) : w = W % n := by
  have hlt : w < n := Nat.lt_of_le_of_ne h.1 hne
  rw [← h.2, Nat.mod_eq_of_lt hlt]

theorem Stands.succ (h : Stands n W w) (hne : w ≠ n) : Stands n (W+1) (w+1) :=
  ⟨Nat.lt_of_le_of_ne h.1 hne, Nat.ModEq.add_right 1 h.2⟩

theorem Stands.wrap (h : Stands n W n) : Stands n W 0 := by
  have hmod := h.2
  rw [Nat.mod_self] at hmod
  exact ⟨Nat.zero_le n, (Nat.zero_mod n).trans hmod⟩

/-- The space that is computed from two indices is the difference of their numbers, unless
the buffer was emptied up to its end before `widx` was set back. -/
theorem availableReadSpace_eq (hr : Stands n R r) (hw : Stands n W w) (hle : R ≤ W)
    (hround : W < R+n) (hwrap : ¬(r = 0 ∧ w = n)) : availableReadSpace (n-1) r w = W-R := by
  have hmod : r+(W-R) ≡ w [MOD n] := by
    have hsum : r+(W-R) ≡ R+(W-R) [MOD n] := Nat.ModEq.add_right (W-R) hr.2
    rw [Nat.add_sub_cancel' hle] at hsum
    exact hsum.trans hw.2.symm
  have hr' := hr.1
  have hw' := hw.1
  have hlt : W-R < n := by omega
  unfold availableReadSpace
  split_ifs with heq hcmp
  · subst heq
    have hzero : W-R ≡ 0 [MOD n] := Nat.ModEq.add_left_cancel' r hmod
    exact (Nat.ModEq.eq_of_lt_of_lt hzero hlt (by omega)).symm
  · have hdiff : W-R ≡ w-r [MOD n] := by
      refine Nat.ModEq.add_left_cancel' r ?_
      rw [Nat.add_sub_cancel' hcmp.le]
      exact hmod
    exact (Nat.ModEq.eq_of_lt_of_lt hdiff hlt (by omega)).symm
  · have hdiff : W-R ≡ n-(r-w) [MOD n] := by
      refine Nat.ModEq.add_left_cancel' r ?_
      rw [show r+(n-(r-w)) = w+n by omega]
      exact hmod.trans (Nat.add_mod_right w n).symm
    have hval := Nat.ModEq.eq_of_lt_of_lt hdiff hlt (by omega)
    omega

end Indices

section Tasks

/-- A byte is stored and not yet published. -/
def Writer.hidden : Writer → ℕ
  | .incr .. | .bump .. => 1
  | _ => 0

/-- What the current call of `ringbuffer_write` has stored. -/
def Writer.done : Writer → List UInt8
  | .index data _ i | .store data _ i _ => data.take i
  | .incr data _ i | .bump data _ i _ | .test data _ i | .wrap data _ i => data.take (i+1)
  | .ret data k => data.take k
  | _ => []

/-- A byte is loaded and its place not yet freed. -/
def Reader.hidden : Reader → ℕ
  | .incr .. | .bump .. => 1
  | _ => 0

/-- What the current call of `ringbuffer_read` has loaded. -/
def Reader.got : Reader → List UInt8
  | .index _ got | .load _ got _ | .incr _ got | .bump _ got _ | .test _ got | .wrap _ got
  | .ret got => got
  | _ => []

/-- An index that was loaded before the reader went on. -/
def Past (n W R r : ℕ) : Prop := ∃ R0, Stands n R0 r ∧ R0 ≤ R ∧ R0 ≤ W ∧ W < R0+n

/-- What the writer knows, given the numbers of published and of freed bytes. -/
def Writer.Ok (n W R widx : ℕ) : Writer → Prop
  | .idle | .spaceR _ | .againR _ => widx ≠ n
  | .spaceW _ r | .againW _ r => widx ≠ n ∧ Past n W R r
  | .index data m i => widx ≠ n ∧ i < m ∧ m ≤ data.length ∧ W+(m-i) < R+n
  | .store data m i w => (widx ≠ n ∧ i < m ∧ m ≤ data.length ∧ W+(m-i) < R+n) ∧ w = widx
  | .incr data m i => widx ≠ n ∧ i < m ∧ m ≤ data.length ∧ W+(m-i) < R+n
  | .bump data m i w => (widx ≠ n ∧ i < m ∧ m ≤ data.length ∧ W+(m-i) < R+n) ∧ w = widx
  | .test data m i => i < m ∧ m ≤ data.length ∧ W+(m-(i+1)) < R+n
  | .wrap data m i => (i < m ∧ m ≤ data.length ∧ W+(m-(i+1)) < R+n) ∧ widx = n
  | .ret data k => widx ≠ n ∧ k ≤ data.length

/-- What the reader knows. -/
def Reader.Ok (n W R ridx : ℕ) : Reader → Prop
  | .idle | .emptyR _ | .availR _ | .ret _ => ridx ≠ n
  | .emptyW _ r | .availW _ r => ridx ≠ n ∧ r = ridx
  | .index m got => ridx ≠ n ∧ got.length < m ∧ R+(m-got.length) ≤ W
  | .load m got r => (ridx ≠ n ∧ got.length < m ∧ R+(m-got.length) ≤ W) ∧ r = ridx
  | .incr m got => ridx ≠ n ∧ got.length ≤ m ∧ R+1+(m-got.length) ≤ W
  | .bump m got r => (ridx ≠ n ∧ got.length ≤ m ∧ R+1+(m-got.length) ≤ W) ∧ r = ridx
  | .test m got => got.length ≤ m ∧ R+(m-got.length) ≤ W
  | .wrap m got => (got.length ≤ m ∧ R+(m-got.length) ≤ W) ∧ ridx = n

variable {n W W' R R' widx ridx : ℕ}

/-- The writer does not mind that more was read. -/
theorem Writer.Ok.mono {pc : Writer} (h : pc.Ok n W R widx) (hR : R ≤ R') : pc.Ok n W R' widx := by
  cases pc <;> grind [Writer.Ok, Past]

/-- The reader does not mind that more was written. -/
theorem Reader.Ok.mono {pc : Reader} (h : pc.Ok n W R ridx) (hW : W ≤ W') : pc.Ok n W' R ridx := by
  cases pc <;> grind [Reader.Ok]

theorem Writer.loop_hidden (data : List UInt8) (m i : ℕ) : (Writer.loop data m i).hidden = 0 := by
  unfold Writer.loop
  split_ifs <;> rfl

theorem Writer.loop_done (data : List UInt8) (m i : ℕ) :
    (Writer.loop data m i).done = data.take i := by
  unfold Writer.loop
  split_ifs <;> rfl

variable {m : ℕ}

theorem Writer.loop_ok {data : List UInt8} {i : ℕ} (hne : widx ≠ n) (hi : i ≤ m)
    (hm : m ≤ data.length) (hroom : W+(m-i) < R+n) : (Writer.loop data m i).Ok n W R widx := by
  unfold Writer.loop
  split_ifs with hlt
  · exact ⟨hne, hlt, hm, hroom⟩
  · exact ⟨hne, hi.trans hm⟩

theorem Reader.loop_hidden (m : ℕ) (got : List UInt8) : (Reader.loop m got).hidden = 0 := by
  unfold Reader.loop
  split_ifs <;> rfl

theorem Reader.loop_got (m : ℕ) (got : List UInt8) : (Reader.loop m got).got = got := by
  unfold Reader.loop
  split_ifs <;> rfl

theorem Reader.loop_ok {got : List UInt8} (hne : ridx ≠ n) (hroom : R+(m-got.length) ≤ W)
    : (Reader.loop m got).Ok n W R ridx := by
  unfold Reader.loop
  split_ifs with hlt
  · exact ⟨hne, hlt, hroom⟩
  · exact hne

end Tasks

/-- The ring holds the bytes that are published or stored and not yet freed. -/
structure Sound (n W R : ℕ) (s : State) : Prop where
  /-- The size. -/
  size : s.ring.length+1 = n
  /-- The bytes stored. -/
  stored : s.stored.length = W+s.writer.hidden
  /-- The bytes loaded. -/
  taken : s.taken.length = R+s.reader.hidden
  /-- `widx`. -/
  widx : Stands n W s.ring.widx
  /-- `ridx`. -/
  ridx : Stands n R s.ring.ridx
  /-- One byte of the buffer stays free. -/
  room : s.stored.length < R+n
  /-- Only published bytes are loaded. -/
  behind : s.taken.length ≤ W
  /-- The bytes come out as they went in. -/
  fifo : s.taken <+: s.stored
  /-- The bytes in the buffer. -/
  bytes : window s.ring.buffer n R (s.stored.length-R) = s.stored.drop R
  /-- The task that writes. -/
  writer : s.writer.Ok n W R s.ring.widx
  /-- The task that reads. -/
  reader : s.reader.Ok n W R s.ring.ridx
  /-- The bytes of the calls of `ringbuffer_write`. -/
  writes : s.stored = (s.writes.flatMap fun x => x.1.take x.2) ++ s.writer.done
  /-- A call stores no more than it was given. -/
  results : ∀ x ∈ s.writes, x.2 ≤ x.1.length
  /-- The bytes of the calls of `ringbuffer_read`. -/
  reads : s.taken = s.reads.flatMap Prod.snd ++ s.reader.got

/-- The reader does not compute its space from `ridx` zero while `widx` is one past the last
byte. -/
def Reader.Apart (length widx : ℕ) : Reader → Prop
  | .availW _ r => ¬(r = 0 ∧ widx = length+1)
  | _ => True

/-- The space that a writer computes the second time is not more than it asked for. -/
def Writer.Fits (length widx : ℕ) : Writer → Prop
  | .againW data r => availableWriteSpace length r widx ≤ data.length
  | _ => True

/-- The schedules that are excluded do not occur. -/
def Ordered (s : State) : Act → Prop
  | .reader => s.reader.Apart s.ring.length s.ring.widx
  | .writer => s.writer.Fits s.ring.length s.ring.widx
  | _ => True

instance (length widx : ℕ) : ∀ pc : Reader, Decidable (pc.Apart length widx)
  | .availW _ r => inferInstanceAs (Decidable ¬(r = 0 ∧ widx = length+1))
  | .idle | .emptyR _ | .emptyW _ _ | .availR _ | .index _ _ | .load _ _ _ | .incr _ _
  | .bump _ _ _ | .test _ _ | .wrap _ _ | .ret _ => isTrue trivial

instance (length widx : ℕ) : ∀ pc : Writer, Decidable (pc.Fits length widx)
  | .againW data r => inferInstanceAs (Decidable (availableWriteSpace length r widx ≤ data.length))
  | .idle | .spaceR _ | .spaceW _ _ | .againR _ | .index _ _ _ | .store _ _ _ _ | .incr _ _ _
  | .bump _ _ _ _ | .test _ _ _ | .wrap _ _ _ | .ret _ _ => isTrue trivial

instance (s : State) : ∀ act, Decidable (Ordered s act)
  | .reader => inferInstanceAs (Decidable (s.reader.Apart s.ring.length s.ring.widx))
  | .writer => inferInstanceAs (Decidable (s.writer.Fits s.ring.length s.ring.widx))
  | .write _ | .read _ => isTrue trivial

section Keeps

variable {n W R : ℕ} {s s' : State}

/-- A step of the writer that stores nothing. -/
theorem Sound.setWriter (h : Sound n W R s) {old pc : Writer} (hpc : s.writer = old)
    (hhidden : pc.hidden = old.hidden) (hdone : pc.done = old.done)
    (hok : pc.Ok n W R s.ring.widx) : Sound n W R { s with writer := pc } :=
  { h with
    stored := by rw [hhidden, ← hpc]; exact h.stored
    writer := hok
    writes := by rw [hdone, ← hpc]; exact h.writes }

variable {old : Reader} {data got : List UInt8} {i m r w : ℕ}

section

variable (h : Sound n W R s)
include h

/-- A step of the reader that stores nothing. -/
theorem Sound.setReader {pc : Reader} (hpc : s.reader = old) (hhidden : pc.hidden = old.hidden)
    (hgot : pc.got = old.got) (hok : pc.Ok n W R s.ring.ridx) :
    Sound n W R { s with reader := pc } :=
  { h with
    taken := by rw [hhidden, ← hpc]; exact h.taken
    reader := hok
    reads := by rw [hgot, ← hpc]; exact h.reads }

theorem Sound.freed_le : R ≤ W :=
  Nat.le_trans (Nat.le_trans (Nat.le_add_right R _) h.taken.ge) h.behind

theorem Sound.storeByte (hpc : s.writer = .store data m i w) :
    Sound n W R { s with
      ring := { s.ring with buffer := Function.update s.ring.buffer w (data.getD i 0) }
      writer := .incr data m i
      stored := s.stored ++ [data.getD i 0] } := by
  have hok := h.writer
  have hstored := h.stored
  have hwrites := h.writes
  rw [hpc] at hok hstored hwrites
  rcases hok with ⟨⟨hne, hi, hm, hroom⟩, hw⟩
  have hlen : s.stored.length = W := hstored
  have hRW := h.freed_le
  have hcell : w = (R+(s.stored.length-R)) % n := by
    rw [hlen, Nat.add_sub_cancel' hRW, hw]
    exact h.widx.eq_mod hne
  have hdata : data.take (i+1) = data.take i ++ [data.getD i 0] := by
    rw [take_succ_eq_append_getElem (by omega), getD_eq_getElem?_getD,
      getElem?_eq_getElem (by omega)]
    rfl
  have hlength : (s.stored ++ [data.getD i 0]).length = W+1 := by
    rw [length_append, hlen, length_singleton]
  have hbytes : window (Function.update s.ring.buffer w (data.getD i 0)) n R
      ((s.stored ++ [data.getD i 0]).length-R) = (s.stored ++ [data.getD i 0]).drop R := by
    have hsucc : (s.stored ++ [data.getD i 0]).length-R = s.stored.length-R+1 := by omega
    rw [hsucc, hcell, window_store (by omega), h.bytes, drop_append_of_le_length (by omega)]
  have hdone : s.stored ++ [data.getD i 0] =
      (s.writes.flatMap fun x => x.1.take x.2) ++ data.take (i+1) := by
    rw [hwrites, hdata, ← append_assoc]
    rfl
  exact
    { h with
      stored := hlength
      room := hlength.trans_lt (by omega)
      fifo := h.fifo.trans (prefix_append _ _)
      bytes := hbytes
      writer := ⟨hne, hi, hm, hroom⟩
      writes := hdone }

/-- `widx++` publishes the byte. -/
theorem Sound.publish (hpc : s.writer = .bump data m i w) :
    Sound n (W+1) R { s with ring := { s.ring with widx := w+1 }, writer := .test data m i } := by
  have hok := h.writer
  have hstored := h.stored
  have hwrites := h.writes
  rw [hpc] at hok hstored hwrites
  rcases hok with ⟨⟨hne, hi, hm, hroom⟩, rfl⟩
  exact
    { h with
      stored := hstored
      widx := h.widx.succ hne
      behind := Nat.le_succ_of_le h.behind
      writer := ⟨hi, hm, by omega⟩
      reader := h.reader.mono (Nat.le_succ W)
      writes := hwrites }

theorem Sound.wrapWriter (hn : 0 < n) (hpc : s.writer = .wrap data m i) :
    Sound n W R { s with
      ring := { s.ring with widx := 0 }, writer := .loop data m (i+1) } := by
  have hok := h.writer
  have hstored := h.stored
  have hwrites := h.writes
  have hwidx := h.widx
  rw [hpc] at hok hstored hwrites
  rcases hok with ⟨⟨hi, hm, hroom⟩, hw⟩
  rw [hw] at hwidx
  exact
    { h with
      stored := by rw [Writer.loop_hidden]; exact hstored
      widx := hwidx.wrap
      writer := Writer.loop_ok hn.ne hi hm hroom
      writes := by rw [Writer.loop_done]; exact hwrites }

theorem Sound.retWriter {k : ℕ} (hpc : s.writer = .ret data k) :
    Sound n W R { s with writer := .idle, writes := s.writes ++ [(data, k)] } := by
  have hok := h.writer
  have hstored := h.stored
  have hwrites := h.writes
  rw [hpc] at hok hstored hwrites
  have hlogged : s.stored = ((s.writes ++ [(data, k)]).flatMap fun x => x.1.take x.2) ++ [] := by
    rw [flatMap_append, append_nil, flatMap_singleton]
    exact hwrites
  have hresults : ∀ x ∈ s.writes ++ [(data, k)], x.2 ≤ x.1.length := by
    intro x hx
    rcases List.mem_append.mp hx with hold | hnew
    · exact h.results x hold
    · rw [List.mem_singleton.mp hnew]
      exact hok.2
  exact { h with stored := hstored, writer := hok.1, writes := hlogged, results := hresults }

/-- What is in `ridx` now was there in the past. -/
theorem Sound.past : Past n W R s.ring.ridx := by
  have hroom := h.room
  have hstored := h.stored
  exact ⟨R, h.ridx, le_rfl, h.freed_le, by omega⟩

/-- The space that a writer finds is there. -/
theorem Sound.space (hn : 0 < n) (hne : s.ring.widx ≠ n) (hpast : Past n W R r) :
    W+availableWriteSpace s.ring.length r s.ring.widx < R+n := by
  rcases hpast with ⟨R0, hr, hle, hRW, hround⟩
  have heq := availableReadSpace_eq hr h.widx hRW hround fun hbad => hne hbad.2
  have hlen : s.ring.length = n-1 := by
    have hsize := h.size
    omega
  rw [availableWriteSpace, hlen]
  omega

/-- A step of the writer. -/
theorem Sound.writerStep (hn : 0 < n) (hord : Ordered s .writer) (hstep : s.writerStep = some s') :
    ∃ W', Sound n W' R s' := by
  have hok := h.writer
  revert hstep
  fun_cases State.writerStep s <;> rintro ⟨⟩
  case case2 hpc | case5 hpc =>
    rw [hpc] at hok
    exact ⟨W, h.setWriter hpc rfl rfl ⟨hok, h.past⟩⟩
  case case3 hpc _ =>
    rw [hpc] at hok
    exact ⟨W, h.setWriter hpc rfl rfl hok.1⟩
  case case4 hpc hless =>
    rw [hpc] at hok
    have hspace := h.space hn hok.1 hok.2
    exact ⟨W, h.setWriter hpc (Writer.loop_hidden ..) (Writer.loop_done ..)
      (Writer.loop_ok hok.1 (Nat.zero_le _) le_rfl (by omega))⟩
  case case6 data r hpc =>
    rw [hpc] at hok
    have hspace := h.space hn hok.1 hok.2
    have hfits : availableWriteSpace s.ring.length r s.ring.widx ≤ data.length := by
      rw [Ordered, hpc] at hord
      exact hord
    exact ⟨W, h.setWriter hpc (Writer.loop_hidden ..) (Writer.loop_done ..)
      (Writer.loop_ok hok.1 (Nat.zero_le _) hfits (by omega))⟩
  case case7 hpc | case9 hpc =>
    rw [hpc] at hok
    exact ⟨W, h.setWriter hpc rfl rfl ⟨hok, rfl⟩⟩
  case case8 hpc => exact ⟨W, h.storeByte hpc⟩
  case case10 hpc => exact ⟨W+1, h.publish hpc⟩
  case case11 hpc hend =>
    rw [hpc] at hok
    have hwidx := h.widx.1
    have hsize := h.size
    exact ⟨W, h.setWriter hpc rfl rfl ⟨hok, by omega⟩⟩
  case case12 hpc hend =>
    rw [hpc] at hok
    have hsize := h.size
    exact ⟨W, h.setWriter hpc (Writer.loop_hidden ..) (Writer.loop_done ..)
      (Writer.loop_ok (by omega) hok.1 hok.2.1 hok.2.2)⟩
  case case13 hpc => exact ⟨W, h.wrapWriter hn hpc⟩
  case case14 hpc => exact ⟨W, h.retWriter hpc⟩

theorem Sound.loadByte (hpc : s.reader = .load m got r) :
    Sound n W R { s with
      reader := .incr m (got ++ [s.ring.buffer r])
      taken := s.taken ++ [s.ring.buffer r] } := by
  have hok := h.reader
  have htaken := h.taken
  have hreads := h.reads
  have hstored := h.stored
  rw [hpc] at hok htaken hreads
  rcases hok with ⟨⟨hne, hm, hroom⟩, hr⟩
  have hlen : s.taken.length = R := htaken
  have hcell : r = R % n := hr.trans (h.ridx.eq_mod hne)
  have hbyte : s.stored.drop R = s.ring.buffer r :: window s.ring.buffer n (R+1)
      (s.stored.length-R-1) := by
    rw [← h.bytes, hcell, ← window_cons, show s.stored.length-R-1+1 = s.stored.length-R by omega]
  have hlength : (s.taken ++ [s.ring.buffer r]).length = R+1 := by
    rw [length_append, hlen, length_singleton]
  have hgot : (got ++ [s.ring.buffer r]).length = got.length+1 := by
    rw [length_append, length_singleton]
  have hfifo : s.taken ++ [s.ring.buffer r] <+: s.stored := by
    have htake : s.taken = s.stored.take R := by
      rw [← hlen]
      exact List.prefix_iff_eq_take.mp h.fifo
    refine ⟨window s.ring.buffer n (R+1) (s.stored.length-R-1), ?_⟩
    rw [append_assoc, singleton_append, ← hbyte, htake, take_append_drop]
  have hloaded : s.taken ++ [s.ring.buffer r] =
      s.reads.flatMap Prod.snd ++ (got ++ [s.ring.buffer r]) := by
    rw [hreads, append_assoc]
    rfl
  exact
    { h with
      taken := hlength
      behind := hlength.trans_le (by omega)
      fifo := hfifo
      reader := ⟨hne, by omega, by omega⟩
      reads := hloaded }

/-- `ridx++` frees the place of the byte. -/
theorem Sound.free (hpc : s.reader = .bump m got r) :
    Sound n W (R+1) { s with ring := { s.ring with ridx := r+1 }, reader := .test m got } := by
  have hok := h.reader
  have htaken := h.taken
  have hreads := h.reads
  have hstored := h.stored
  have hroom := h.room
  rw [hpc] at hok htaken hreads
  rcases hok with ⟨⟨hne, hm, hleft⟩, rfl⟩
  have hbytes := h.bytes
  have hsucc : s.stored.length-R = s.stored.length-(R+1)+1 := by omega
  rw [hsucc, window_cons] at hbytes
  have hrest : window s.ring.buffer n (R+1) (s.stored.length-(R+1)) = s.stored.drop (R+1) := by
    rw [← drop_drop, ← hbytes]
    rfl
  exact
    { h with
      taken := htaken
      ridx := h.ridx.succ hne
      room := lt_of_lt_of_le hroom (by omega)
      bytes := hrest
      writer := h.writer.mono (Nat.le_succ R)
      reader := ⟨hm, by omega⟩
      reads := hreads }

theorem Sound.wrapReader (hn : 0 < n) (hpc : s.reader = .wrap m got) :
    Sound n W R { s with ring := { s.ring with ridx := 0 }, reader := .loop m got } := by
  have hok := h.reader
  have htaken := h.taken
  have hreads := h.reads
  have hridx := h.ridx
  rw [hpc] at hok htaken hreads
  rcases hok with ⟨⟨-, hleft⟩, hr⟩
  rw [hr] at hridx
  exact
    { h with
      taken := by rw [Reader.loop_hidden]; exact htaken
      ridx := hridx.wrap
      reader := Reader.loop_ok hn.ne hleft
      reads := by rw [Reader.loop_got]; exact hreads }

theorem Sound.logRead {ret : ℤ} {bytes : List UInt8} (hpc : s.reader = old)
    (hhidden : old.hidden = 0) (hbytes : bytes = old.got) (hne : s.ring.ridx ≠ n) :
    Sound n W R { s with reader := .idle, reads := s.reads ++ [(ret, bytes)] } := by
  have htaken := h.taken
  rw [hpc, hhidden] at htaken
  have hlogged : s.taken = (s.reads ++ [(ret, bytes)]).flatMap Prod.snd ++ [] := by
    rw [flatMap_append, append_nil, flatMap_singleton, hbytes, ← hpc]
    exact h.reads
  exact { h with taken := htaken, reader := hne, reads := hlogged }

/-- A step of the reader. -/
theorem Sound.readerStep (hn : 0 < n) (hord : Ordered s .reader) (hstep : s.readerStep = some s') :
    ∃ R', Sound n W R' s' := by
  have hok := h.reader
  revert hstep
  fun_cases State.readerStep s <;> rintro ⟨⟩
  case case2 hpc | case5 hpc | case7 hpc | case9 hpc =>
    rw [hpc] at hok
    exact ⟨R, h.setReader hpc rfl rfl ⟨hok, rfl⟩⟩
  case case3 hpc _ | case4 hpc _ =>
    rw [hpc] at hok
    exact ⟨R, h.setReader hpc rfl rfl hok.1⟩
  case case6 amount r hpc =>
    rw [hpc] at hok
    have hsize := h.size
    have hroom := h.room
    have hstored := h.stored
    have hRW := h.freed_le
    have hapart : ¬(r = 0 ∧ s.ring.widx = n) := by
      rw [Ordered, hpc] at hord
      rw [← hsize]
      exact hord
    have hspace : availableReadSpace s.ring.length r s.ring.widx = W-R := by
      rw [show s.ring.length = n-1 by omega]
      exact availableReadSpace_eq (hok.2 ▸ h.ridx) h.widx hRW (by omega) hapart
    refine ⟨R, h.setReader hpc (Reader.loop_hidden ..) (Reader.loop_got ..)
      (Reader.loop_ok hok.1 ?_)⟩
    omega
  case case8 hpc => exact ⟨R, h.loadByte hpc⟩
  case case10 hpc => exact ⟨R+1, h.free hpc⟩
  case case11 hpc hend =>
    rw [hpc] at hok
    have hridx := h.ridx.1
    have hsize := h.size
    exact ⟨R, h.setReader hpc rfl rfl ⟨hok, by omega⟩⟩
  case case12 hpc hend =>
    rw [hpc] at hok
    have hsize := h.size
    exact ⟨R, h.setReader hpc (Reader.loop_hidden ..) (Reader.loop_got ..)
      (Reader.loop_ok (by omega) hok.2)⟩
  case case13 hpc => exact ⟨R, h.wrapReader hn hpc⟩
  case case14 hpc =>
    rw [hpc] at hok
    exact ⟨R, h.logRead hpc rfl rfl hok⟩

/-- Every step keeps the ring sound. -/
theorem Sound.step (hn : 0 < n) {act : Act} (hord : Ordered s act) (hstep : s.step act = some s') :
    ∃ W' R', Sound n W' R' s' := by
  revert hstep
  fun_cases State.step s act <;> intro hstep
  case case1 data hpc =>
    have hok := h.writer
    rw [hpc] at hok
    cases hstep
    exact ⟨W, R, h.setWriter hpc rfl rfl hok⟩
  case case3 hpc =>
    have hok := h.reader
    cases hstep
    rw [hpc] at hok ⊢
    exact ⟨W, R, h.logRead hpc rfl rfl hok⟩
  case case4 hpc _ =>
    have hok := h.reader
    rw [hpc] at hok
    cases hstep
    exact ⟨W, R, h.setReader hpc rfl rfl hok⟩
  case case6 =>
    rcases h.writerStep hn hord hstep with ⟨W', h'⟩
    exact ⟨W', R, h'⟩
  case case7 =>
    rcases h.readerStep hn hord hstep with ⟨R', h'⟩
    exact ⟨W, R', h'⟩
  all_goals cases hstep

end

end Keeps

/-- A new ring is sound. -/
theorem Sound.start {n : ℕ} (hn : 1 < n) : Sound n 0 0 (State.start n) where
  size := Nat.sub_add_cancel (Nat.zero_lt_of_lt hn)
  stored := rfl
  taken := rfl
  widx := ⟨Nat.zero_le n, rfl⟩
  ridx := ⟨Nat.zero_le n, rfl⟩
  room := by
    show 0 < 0+n
    omega
  behind := le_refl 0
  fifo := nil_prefix
  bytes := rfl
  writer := (Nat.zero_lt_of_lt hn).ne
  reader := (Nat.zero_lt_of_lt hn).ne
  writes := rfl
  results := nofun
  reads := rfl

section Returns

/-- The most steps a call of `ringbuffer_write` still takes. -/
def Writer.left : Writer → ℕ
  | .idle => 0
  | .spaceR data => 6*data.length+5
  | .spaceW data _ => 6*data.length+4
  | .againR data => 6*data.length+3
  | .againW data _ => 6*data.length+2
  | .index _ m i => 6*(m-(i+1))+7
  | .store _ m i _ => 6*(m-(i+1))+6
  | .incr _ m i => 6*(m-(i+1))+5
  | .bump _ m i _ => 6*(m-(i+1))+4
  | .test _ m i => 6*(m-(i+1))+3
  | .wrap _ m i => 6*(m-(i+1))+2
  | .ret _ _ => 1

theorem Writer.loop_left (data : List UInt8) (m i : ℕ) :
    (Writer.loop data m i).left ≤ 6*(m-i)+1 := by
  unfold Writer.loop
  split_ifs with hlt
  · show 6*(m-(i+1))+7 ≤ _
    omega
  · exact Nat.le_add_left 1 _

theorem Writer.loop_ne_idle (data : List UInt8) (m i : ℕ) : Writer.loop data m i ≠ .idle := by
  unfold Writer.loop
  split_ifs <;> nofun

variable {s s' : State}

/-- A step of the writer brings its call nearer to the return, or returns. -/
theorem writerStep_left (hord : Ordered s .writer) (hstep : s.writerStep = some s') :
    s'.writer.left < s.writer.left ∧
      (s'.writer ≠ .idle ∧ s'.writes = s.writes ∨ s'.writes.length = s.writes.length+1) := by
  revert hstep
  fun_cases State.writerStep s <;> rintro ⟨⟩
  case case4 data _ hpc hless =>
    have hleft := Writer.loop_left data data.length 0
    rw [hpc]
    refine ⟨hleft.trans_lt ?_, .inl ⟨Writer.loop_ne_idle _ _ _, rfl⟩⟩
    exact Nat.add_lt_add_left (by omega) _
  case case6 data r hpc =>
    rw [Ordered, hpc] at hord
    have hleft := Writer.loop_left data (availableWriteSpace s.ring.length r s.ring.widx) 0
    have hfits : availableWriteSpace s.ring.length r s.ring.widx ≤ data.length := hord
    rw [hpc]
    refine ⟨hleft.trans_lt ?_, .inl ⟨Writer.loop_ne_idle _ _ _, rfl⟩⟩
    show 6*availableWriteSpace s.ring.length r s.ring.widx+1 < 6*data.length+2
    omega
  case case12 data m i hpc _ =>
    have hleft := Writer.loop_left data m (i+1)
    rw [hpc]
    refine ⟨hleft.trans_lt ?_, .inl ⟨Writer.loop_ne_idle _ _ _, rfl⟩⟩
    exact Nat.add_lt_add_left (by omega) _
  case case13 data m i hpc =>
    have hleft := Writer.loop_left data m (i+1)
    rw [hpc]
    refine ⟨hleft.trans_lt ?_, .inl ⟨Writer.loop_ne_idle _ _ _, rfl⟩⟩
    exact Nat.lt_succ_self _
  case case14 hpc =>
    rw [hpc]
    exact ⟨zero_lt_one, .inr (length_append ..)⟩
  case case2 hpc | case3 hpc _ | case5 hpc | case7 hpc | case8 hpc | case9 hpc | case10 hpc |
      case11 hpc _ =>
    rw [hpc]
    exact ⟨Nat.lt_succ_self _, .inl ⟨by simp, rfl⟩⟩

/-- The reader leaves the writer alone. -/
theorem readerStep_writer (hstep : s.readerStep = some s') :
    s'.writer = s.writer ∧ s'.writes = s.writes := by
  revert hstep
  fun_cases State.readerStep s <;> rintro ⟨⟩ <;> exact ⟨rfl, rfl⟩

variable {act : Act}

/-- A step of anyone brings a call of `ringbuffer_write` nearer to the return, returns, or
leaves it as it is. -/
theorem step_left (hord : Ordered s act) (hstep : s.step act = some s') (hcall : s.writer ≠ .idle) :
    s.writes.length < s'.writes.length ∨ s'.writer ≠ .idle ∧ s'.writes = s.writes ∧
      s'.writer.left + [act].count .writer ≤ s.writer.left := by
  cases act with
  | write data =>
    cases hpc : s.writer <;> simp only [State.step, hpc, reduceCtorEq] at hstep
    exact absurd hpc hcall
  | read amount =>
    cases hpc : s.reader <;> simp only [State.step, hpc, reduceCtorEq] at hstep
    split_ifs at hstep <;> cases hstep <;> exact .inr ⟨hcall, rfl, le_refl _⟩
  | writer =>
    rcases writerStep_left hord hstep with ⟨hleft, ⟨hne, hsame⟩ | hret⟩
    · exact .inr ⟨hne, hsame, hleft⟩
    · exact .inl (by omega)
  | reader =>
    have hsame := readerStep_writer hstep
    exact .inr ⟨hsame.1 ▸ hcall, hsame.2, (congrArg Writer.left hsame.1).le⟩

/-- No call is taken back. -/
theorem step_writes_le (hstep : s.step act = some s') : s.writes.length ≤ s'.writes.length := by
  cases act with
  | write data =>
    cases hpc : s.writer <;> simp only [State.step, hpc, reduceCtorEq] at hstep
    cases hstep
    exact le_refl _
  | read amount =>
    cases hpc : s.reader <;> simp only [State.step, hpc, reduceCtorEq] at hstep
    split_ifs at hstep <;> cases hstep <;> exact le_refl _
  | writer =>
    revert hstep
    rw [State.step]
    fun_cases State.writerStep s <;> rintro ⟨⟩
    case case14 => exact (length_append ..).symm ▸ Nat.le_add_right _ _
    all_goals exact le_refl _
  | reader => exact (congrArg List.length (readerStep_writer hstep).2).ge

/-- A call of `ringbuffer_write` has returned after that many steps of its task. -/
theorem run_returns : ∀ {acts : List Act} {s s' : State}, Along State.step Ordered s acts →
    run State.step s acts = some s' → s.writer ≠ .idle →
    s.writer.left ≤ acts.count .writer → s.writes.length < s'.writes.length
  | [], s, s', _, _, hcall, hleft => by
    cases hpc : s.writer <;> rw [hpc] at hleft <;>
      first | exact absurd hpc hcall | exact absurd hleft (Nat.not_succ_le_zero _)
  | act :: acts, s, s', hord, hrun, hcall, hleft => by
    cases hs : s.step act with
    | none =>
      rw [run, hs] at hrun
      cases hrun
    | some t =>
      rw [run, hs] at hrun
      rcases step_left hord.1 hs hcall with hret | ⟨hne, hsame, hdown⟩
      · have hmono : t.writes.length ≤ s'.writes.length :=
          run_keeps (P := fun u => t.writes.length ≤ u.writes.length)
            (fun _ _ _ _ hu hstep => hu.trans (step_writes_le hstep)) (hord.2 t hs)
            (le_refl _) hrun
        exact hret.trans_le hmono
      · rw [← singleton_append, count_append] at hleft
        rw [← hsame]
        exact run_returns (hord.2 t hs) hrun hne (by omega)

end Returns

/-- In every run of the two tasks without the two schedules of `Ordered`, each call of
`ringbuffer_write` stores the first bytes of its data, as many as it returns; the bytes that
were read are the first ones that were stored; at most `n-1` stored bytes are not yet read;
and a call of `ringbuffer_write` returns. -/
theorem ringbuffer_fifo {n : ℕ} (hn : 2 ≤ n) {acts : List Act} {s : State}
    (hord : Along State.step Ordered (State.start n) acts)
    (hrun : run State.step (State.start n) acts = some s) :
    (∀ x ∈ s.writes, x.2 ≤ x.1.length) ∧
    s.stored = (s.writes.flatMap fun x => x.1.take x.2) ++ s.writer.done ∧
    s.reads.flatMap Prod.snd ++ s.reader.got <+: s.stored ∧
    s.stored.length ≤ (s.reads.flatMap Prod.snd ++ s.reader.got).length+(n-1) ∧
    (s.writer ≠ .idle → s.writerStep.isSome ∧
      ∀ {more : List Act} {s' : State}, Along State.step Ordered s more →
        run State.step s more = some s' → s.writer.left ≤ more.count .writer →
        s.writes.length < s'.writes.length) := by
  have hn' : 0 < n := by omega
  have hsound : ∃ W R, Sound n W R s :=
    run_keeps (P := fun t => ∃ W R, Sound n W R t)
      (fun _ _ _ hok ⟨_, _, ht⟩ hstep => ht.step hn' hok hstep) hord ⟨0, 0, .start hn⟩ hrun
  rcases hsound with ⟨W, R, h⟩
  have hroom := h.room
  have htaken := h.taken
  rw [← h.reads]
  refine ⟨h.results, h.writes, h.fifo, by omega, fun hcall => ⟨?_, fun hmore hrun' hleft => ?_⟩⟩
  · unfold State.writerStep
    split
    case h_1 hidle => exact absurd hidle hcall
    case h_3 | h_10 => split_ifs <;> rfl
    all_goals rfl
  · exact run_returns hmore hrun' hcall hleft

/-- A call writes two bytes to a buffer of three and returns; the bytes are read while
another call has stored its first byte. -/
def sampleActs : List Act :=
  Act.write [1, 2] :: List.replicate 13 Act.writer ++
    Act.write [3, 4] :: List.replicate 2 Act.writer ++
    Act.read 2 :: List.replicate 9 Act.reader ++
    List.replicate 6 Act.writer ++ List.replicate 6 Act.reader

theorem ringbuffer_fifo_sample :
    ∃ s, run State.step (State.start 3) sampleActs = some s ∧
      (s.reads.flatMap Prod.snd ++ s.reader.got <+: s.stored) ∧
      s.reads = [(2, [1, 2])] ∧ s.stored = [1, 2, 3] := by
  obtain ⟨s, hrun, hs⟩ : ∃ s, run State.step (State.start 3) sampleActs = some s ∧
      s.reads = [(2, [1, 2])] ∧ s.stored = [1, 2, 3] := by
    decide +kernel
  have hfifo := ringbuffer_fifo (by decide) (by decide +kernel) hrun
  exact ⟨s, hrun, hfifo.2.2.1, hs⟩

/-- The writer has stored its byte and the 2 in `widx`, and not yet the 0. The reader takes
the byte, comes to `ridx` zero and computes that two bytes are there. -/
def staleActs : List Act :=
  Act.write [7] :: List.replicate 8 Act.writer ++ Act.read 1 :: List.replicate 10 Act.reader ++
    Act.write [8] :: List.replicate 6 Act.writer ++ Act.read 1 :: List.replicate 11 Act.reader ++
    Act.read 1 :: List.replicate 10 Act.reader

/-- The buffer is full when a call with one byte computes its space, and empty when it
computes it again. -/
def overrunActs : List Act :=
  Act.write [1, 2, 3] :: List.replicate 18 Act.writer ++
    Act.write [9] :: List.replicate 2 Act.writer ++
    Act.read 3 :: List.replicate 20 Act.reader ++ List.replicate 19 Act.writer

/-- Both schedules of `Ordered` do harm: in the first run a byte is read a second time, in the
second one a call with one byte returns 3. -/
theorem ringbuffer_not_fifo :
    (∃ s, run State.step (State.start 2) staleActs = some s ∧
      s.stored = [7, 8] ∧ s.reads.flatMap Prod.snd = [7, 8, 7]) ∧
    (∃ s, run State.step (State.start 4) overrunActs = some s ∧ ([9], 3) ∈ s.writes) := by
  constructor <;> decide +kernel

end PineVoice.RingBuffer
