import PineVoice.Mringbuffer

/-!
# The audio ring buffer as a queue

The buffer holds a queue of bytes and, behind it, the bytes of the free space, which a put by
index turns into queued bytes. Each call is simulated by one operation on the two lists and on the
index of the first queued byte.
-/

namespace PineVoice.AudioRing

open Transition Circular List

/-- A queue of bytes in a buffer. -/
structure Fifo where
  /-- The queued bytes. -/
  queue : List UInt8
  /-- The bytes of the free space, from the end of the queue on. -/
  spare : List UInt8
  /-- The index of the first queued byte. -/
  head : ℕ

/-- An empty queue. -/
def Fifo.empty (pool : ℕ → UInt8) (n : ℕ) : Fifo := ⟨[], window pool n 0 n, 0⟩

/-- The index behind the last queued byte. -/
def Fifo.tail (n : ℕ) (q : Fifo) : ℕ := (q.head+q.queue.length) % n

/-- Bytes are appended in the free space. -/
def Fifo.append (q : Fifo) (data : List UInt8) : Fifo :=
  ⟨q.queue ++ data, q.spare.drop data.length, q.head⟩

/-- The first `d` bytes are removed. -/
def Fifo.remove (n : ℕ) (q : Fifo) (d : ℕ) : Fifo :=
  ⟨q.queue.drop d, q.spare ++ q.queue.take d, (q.head+d) % n⟩

/-- What a put appends: the bytes it was given, or those already stored, as far as there is
space. -/
def Fifo.accepted (q : Fifo) : Source → List UInt8
  | .bytes data => data.take q.spare.length
  | .null length => q.spare.take length

/-- `put_index(i)` can append `d` bytes. -/
def Fifo.PutTo (n : ℕ) (q : Fifo) (i d : ℕ) : Prop :=
  1 ≤ d ∧ d ≤ q.spare.length ∧ (q.tail n+d) % n = i

/-- `get_index(i)` can remove `d` bytes. -/
def Fifo.GetTo (n : ℕ) (q : Fifo) (i d : ℕ) : Prop :=
  1 ≤ d ∧ d ≤ q.queue.length ∧ (q.head+d) % n = i

/-- The first `d` bytes are contiguous in the buffer, and no more are. -/
def Fifo.Contiguous (n : ℕ) (q : Fifo) (d : ℕ) : Prop :=
  (d ≤ q.queue.length ∧ q.head+d ≤ n) ∧ ∀ j ≤ q.queue.length, q.head+j ≤ n → j ≤ d

/-- What a call does to a queue of capacity `n`, and its result. -/
def Fifo.Does (n : ℕ) (q : Fifo) : Call → Result → Fifo → Prop
  | .put source, r, q' | .putFflushCache source _, r, q' =>
    r = ⟨(q.accepted source).length, []⟩ ∧ q' = q.append (q.accepted source)
  | .putchar ch, r, q' =>
    r = ⟨(q.accepted (.bytes [ch])).length, []⟩ ∧ q' = q.append (q.accepted (.bytes [ch]))
  | .putIndex i, r, q' =>
    (∃ d, q.PutTo n i d ∧ r = ⟨d, []⟩ ∧ q' = q.append (q.spare.take d)) ∨
      (¬∃ d, q.PutTo n i d) ∧ (r = ⟨-1, []⟩ ∨ r = ⟨-2, []⟩ ∨ r = ⟨-3, []⟩) ∧ q' = q
  | .get ptr length, r, q' | .getInvalidCache ptr length _, r, q' =>
    r = ⟨(min length q.queue.length : ℕ), if ptr then q.queue.take length else []⟩ ∧
      q' = q.remove n (min length q.queue.length)
  | .getchar ch, r, q' =>
    r = ⟨(min 1 q.queue.length : ℕ), if ch then q.queue.take 1 else []⟩ ∧
      q' = q.remove n (min 1 q.queue.length)
  | .getIndex i, r, q' =>
    (∃ d, q.GetTo n i d ∧ r = ⟨d, []⟩ ∧ q' = q.remove n d) ∨
      (¬∃ d, q.GetTo n i d) ∧
        (r = ⟨2^32-1, []⟩ ∨ r = ⟨2^32-2, []⟩ ∨ r = ⟨2^32-3, []⟩) ∧ q' = q
  | .peek, r, q' => ∃ d, q.Contiguous n d ∧ r = ⟨d, q.queue.take d⟩ ∧ q' = q.remove n d
  | .dma k b, r, q' => r = ⟨0, []⟩ ∧ q' = { q with spare := q.spare.set k b }

/-- The indices given to `put_index` and `get_index` are in the buffer. -/
def Call.Inside (n : ℕ) : Call → Prop
  | .putIndex i | .getIndex i => i < n
  | _ => True

instance (n : ℕ) : ∀ c : Call, Decidable (c.Inside n)
  | .putIndex i | .getIndex i => inferInstanceAs (Decidable (i < n))
  | .put _ | .putFflushCache _ _ | .putchar _ | .get _ _ | .getInvalidCache _ _ _ | .getchar _
  | .peek | .dma _ _ => isTrue trivial

/-- An index and its mirror bit, `k` bytes further. -/
def Moved (n idx k idx' : ℕ) (mirror mirror' : Bool) : Prop :=
  idx+k < n ∧ idx' = idx+k ∧ mirror' = mirror ∨
    n ≤ idx+k ∧ idx'+n = idx+k ∧ mirror' = !mirror

/-- The buffer holds the queue. -/
structure Holds (n : ℕ) (rb : Mringbuffer) (q : Fifo) : Prop where
  /-- The capacity. -/
  size : rb.bufferSize = n
  /-- The first queued byte. -/
  head : q.head = rb.readIndex
  /-- The index is in the buffer. -/
  inside : rb.readIndex < n
  /-- The bytes, once around. -/
  bytes : window rb.bufferPtr n rb.readIndex n = q.queue ++ q.spare
  /-- The write index. -/
  tail : Moved n rb.readIndex q.queue.length rb.writeIndex rb.readMirror rb.writeMirror

variable {n : ℕ} {rb : Mringbuffer} {q : Fifo}

variable {k : ℕ}

theorem Moved.mod_eq {idx idx' : ℕ} {mirror mirror' : Bool} (h : Moved n idx k idx' mirror mirror')
    (hidx : idx < n) (hk : k ≤ n) : idx' = (idx+k) % n := by
  rcases h with ⟨hlt, rfl, -⟩ | ⟨hge, hidx', -⟩
  · exact (Nat.mod_eq_of_lt hlt).symm
  · rw [Nat.mod_eq_sub_mod hge, Nat.mod_eq_of_lt (by omega)]
    omega

section Facts

section

variable (h : Holds n rb q)
include h

/-- Queue and free space fill the buffer. -/
theorem Holds.total : q.queue.length+q.spare.length = n := by
  rw [← length_append, ← h.bytes, window_length]

theorem Holds.dataLen : mringbufferDataLen rb = q.queue.length := by
  have htotal := h.total
  have hsize := h.size
  unfold mringbufferDataLen mringbufferStatus
  rcases h.tail with ⟨hlt, hwi, hmirror⟩ | ⟨hge, hwi, hmirror⟩
  · by_cases hempty : rb.readIndex = rb.writeIndex
    · simp only [if_pos hempty, if_pos hmirror.symm]
      omega
    · simp only [if_neg hempty]
      rw [if_pos (by omega)]
      omega
  · have hne : rb.readMirror ≠ rb.writeMirror := by
      rw [hmirror]
      exact (Bool.not_ne_self rb.readMirror).symm
    by_cases hfull : rb.readIndex = rb.writeIndex
    · simp only [if_pos hfull, if_neg hne]
      omega
    · simp only [if_neg hfull]
      rw [if_neg (by omega)]
      omega

theorem Holds.spaceLen : mringbufferSpaceLen rb = q.spare.length := by
  have htotal := h.total
  rw [mringbufferSpaceLen, h.dataLen, h.size]
  omega

theorem Holds.write_lt : rb.writeIndex < n := by
  have htotal := h.total
  have hinside := h.inside
  rcases h.tail with ⟨hlt, hwi, -⟩ | ⟨hge, hwi, -⟩ <;> omega

theorem Holds.write_eq : rb.writeIndex = (rb.readIndex+q.queue.length) % n :=
  h.tail.mod_eq h.inside (h.total ▸ Nat.le_add_right ..)

/-- The bytes once around from the write index on. -/
theorem Holds.behind : window rb.bufferPtr n rb.writeIndex n = q.spare ++ q.queue := by
  rw [h.write_eq, window_mod]
  exact window_rotate h.bytes

/-- The first bytes from the read index on. -/
theorem Holds.front {d : ℕ} (hd : d ≤ q.queue.length) :
    window rb.bufferPtr n rb.readIndex d = q.queue.take d := by
  have htotal := h.total
  rw [← take_append_of_le_length hd, ← h.bytes, window_take, min_eq_left (by omega)]

/-- The write index is behind the queue, perhaps one round less. -/
theorem Holds.write_cases :
    rb.writeIndex = rb.readIndex+q.queue.length ∨
      rb.writeIndex+n = rb.readIndex+q.queue.length := by
  rcases h.tail with ⟨-, hwi, -⟩ | ⟨-, hwi, -⟩
  · exact .inl hwi
  · exact .inr hwi

end

end Facts

section Moves

variable {rb' : Mringbuffer}

/-- Bytes are appended when the buffer has them behind the queue and the write index moves. -/
theorem Holds.append (h : Holds n rb q) {data : List UInt8} (hdata : data.length ≤ q.spare.length)
    (hread : rb'.readIndex = rb.readIndex ∧ rb'.readMirror = rb.readMirror ∧
      rb'.bufferSize = rb.bufferSize)
    (hbytes : window rb'.bufferPtr n rb.writeIndex n = data ++ (q.spare ++ q.queue).drop data.length)
    (hmoved : Moved n rb.writeIndex data.length rb'.writeIndex rb.writeMirror rb'.writeMirror) :
    Holds n rb' (q.append data) := by
  have htotal := h.total
  have hinside := h.inside
  rcases hread with ⟨hri, hrm, hbs⟩
  constructor
  · rw [hbs, h.size]
  · rw [hri]
    exact h.head
  · rw [hri]
    exact h.inside
  · have hround : window rb'.bufferPtr n rb.writeIndex n =
        (data ++ q.spare.drop data.length) ++ q.queue := by
      rw [hbytes, drop_append_of_le_length hdata, append_assoc]
    have hback := window_rotate hround
    have hlen : (data ++ q.spare.drop data.length).length = q.spare.length := by
      rw [length_append, length_drop]
      omega
    have hstart : (rb.writeIndex+q.spare.length) % n = rb.readIndex := by
      rw [h.write_eq, Nat.mod_add_mod, add_assoc, htotal, Nat.add_mod_right,
        Nat.mod_eq_of_lt hinside]
    rw [hlen, ← window_mod, hstart] at hback
    rw [hri, hback]
    exact (append_assoc ..).symm
  · show Moved n rb'.readIndex (q.queue ++ data).length rb'.writeIndex rb'.readMirror rb'.writeMirror
    rw [hrm, length_append]
    rcases h.tail with ⟨hlt, hwi, hwm⟩ | ⟨hge, hwi, hwm⟩ <;>
      rcases hmoved with ⟨hlt', hwi', hwm'⟩ | ⟨hge', hwi', hwm'⟩
    · exact .inl ⟨by omega, by omega, hwm'.trans hwm⟩
    · exact .inr ⟨by omega, by omega, hwm'.trans (congrArg not hwm)⟩
    · exact .inr ⟨by omega, by omega, hwm'.trans hwm⟩
    · omega

/-- Bytes are removed when the read index moves. -/
theorem Holds.remove (h : Holds n rb q) {d : ℕ} (hd : d ≤ q.queue.length)
    (hwrite : rb'.writeIndex = rb.writeIndex ∧ rb'.writeMirror = rb.writeMirror ∧
      rb'.bufferSize = rb.bufferSize ∧ rb'.bufferPtr = rb.bufferPtr)
    (hmoved : Moved n rb.readIndex d rb'.readIndex rb.readMirror rb'.readMirror) :
    Holds n rb' (q.remove n d) := by
  have htotal := h.total
  have hinside := h.inside
  have hmod := hmoved.mod_eq hinside (by omega)
  rcases hwrite with ⟨hwi', hwm', hbs, hmem⟩
  constructor
  · rw [hbs, h.size]
  · rw [hmod, ← h.head]
    rfl
  · rw [hmod]
    exact Nat.mod_lt _ (by omega)
  · have hround : window rb.bufferPtr n rb.readIndex n =
        q.queue.take d ++ (q.queue.drop d ++ q.spare) := by
      rw [h.bytes, ← append_assoc, take_append_drop]
    have hback := window_rotate hround
    rw [length_take_of_le hd, ← window_mod, ← hmod] at hback
    rw [hmem, hback]
    exact append_assoc ..
  · show Moved n rb'.readIndex (q.queue.drop d).length rb'.writeIndex rb'.readMirror rb'.writeMirror
    rw [hwm', length_drop]
    rcases h.tail with ⟨hlt, hwi, hwm⟩ | ⟨hge, hwi, hwm⟩ <;>
      rcases hmoved with ⟨hlt', hri', hrm'⟩ | ⟨hge', hri', hrm'⟩
    · exact .inl ⟨by omega, by omega, hwm.trans hrm'.symm⟩
    · omega
    · exact .inr ⟨by omega, by omega, hwm.trans (congrArg not hrm'.symm)⟩
    · refine .inl ⟨by omega, by omega, ?_⟩
      rw [hwm, hrm']

end Moves

section Puts

theorem Fifo.accepted_length (q : Fifo) (source : Source) : (q.accepted source).length =
    if q.spare.length < source.length then q.spare.length else source.length := by
  cases source with
  | bytes data =>
    show (data.take q.spare.length).length = if _ < data.length then _ else data.length
    rw [length_take]
    split_ifs <;> omega
  | null length =>
    show (q.spare.take length).length = if _ < length then _ else length
    rw [length_take]
    split_ifs <;> omega

/-- The bytes of a put that were given are the first ones. -/
theorem Fifo.take_accepted (q : Fifo) (data : List UInt8) :
    data.take (q.accepted (.bytes data)).length = q.accepted (.bytes data) := by
  show data.take (data.take q.spare.length).length = data.take q.spare.length
  rw [length_take, ← take_eq_take_min]

/-- Bytes already stored stay where they are. -/
theorem Holds.stored (h : Holds n rb q) (d : ℕ) :
    window rb.bufferPtr n rb.writeIndex n =
      q.spare.take d ++ (q.spare ++ q.queue).drop (q.spare.take d).length := by
  have hle : (q.spare.take d).length ≤ q.spare.length := length_take_le' d q.spare
  have hdrop : q.spare.drop (q.spare.take d).length = q.spare.drop d := by
    rw [length_take, ← drop_eq_drop_min]
  rw [h.behind, drop_append_of_le_length hle, hdrop, ← append_assoc, take_append_drop]

/-- A put appends what it accepts. -/
theorem Holds.put (h : Holds n rb q) (source : Source) (fflushCache : Bool) :
    (mringbufferPutFflushCache rb source.ptr source.length fflushCache).length =
      (q.accepted source).length ∧
    Holds n (mringbufferPutFflushCache rb source.ptr source.length fflushCache).rb
      (q.append (q.accepted source)) := by
  have hwrite := h.write_lt
  have htotal := h.total
  have hsize := h.size
  have hlen := q.accepted_length source
  have hle : (q.accepted source).length ≤ q.spare.length := by
    rw [hlen]
    split_ifs <;> omega
  subst hsize
  unfold mringbufferPutFflushCache
  simp only [h.spaceLen, ← hlen]
  by_cases hspace : q.spare.length = 0
  · have hnil : q.accepted source = [] := eq_nil_of_length_eq_zero (by omega)
    rw [if_pos hspace, hnil]
    refine ⟨rfl, h.append (Nat.zero_le _) ⟨rfl, rfl, rfl⟩ h.behind ?_⟩
    exact .inl ⟨hwrite, rfl, rfl⟩
  rw [if_neg hspace]
  by_cases hfirst : (q.accepted source).length < rb.bufferSize-rb.writeIndex
  · rw [if_pos hfirst]
    have hmoved : Moved rb.bufferSize rb.writeIndex (q.accepted source).length
        (rb.writeIndex+(q.accepted source).length) rb.writeMirror rb.writeMirror :=
      .inl ⟨by omega, rfl, rfl⟩
    cases source with
    | bytes data =>
      refine ⟨rfl, h.append hle ⟨rfl, rfl, rfl⟩ ?_ hmoved⟩
      show window (copy rb.bufferPtr rb.writeIndex (data.take _)) _ rb.writeIndex _ = _
      rw [q.take_accepted, window_copy (by omega), h.behind]
    | null length => exact ⟨rfl, h.append hle ⟨rfl, rfl, rfl⟩ (h.stored length) hmoved⟩
  · rw [if_neg hfirst]
    have hmoved : Moved rb.bufferSize rb.writeIndex (q.accepted source).length
        ((q.accepted source).length-(rb.bufferSize-rb.writeIndex)) rb.writeMirror
        (!rb.writeMirror) := .inr ⟨by omega, by omega, rfl⟩
    cases source with
    | bytes data =>
      refine ⟨rfl, h.append hle ⟨rfl, rfl, rfl⟩ ?_ hmoved⟩
      show window (copy (copy rb.bufferPtr rb.writeIndex (data.take _)) 0
        ((data.drop _).take _)) _ rb.writeIndex _ = _
      have htake : data.take (rb.bufferSize-rb.writeIndex) =
          (q.accepted (.bytes data)).take (rb.bufferSize-rb.writeIndex) := by
        rw [← q.take_accepted, take_take, min_eq_left (by omega)]
      have hdrop : (data.drop (rb.bufferSize-rb.writeIndex)).take
          ((q.accepted (.bytes data)).length-(rb.bufferSize-rb.writeIndex)) =
          (q.accepted (.bytes data)).drop (rb.bufferSize-rb.writeIndex) := by
        rw [← drop_take, q.take_accepted]
      rw [htake, hdrop, window_copy_copy hwrite (by omega) (by omega), h.behind]
    | null length => exact ⟨rfl, h.append hle ⟨rfl, rfl, rfl⟩ (h.stored length) hmoved⟩

/-- `putchar` is a put of one byte. -/
theorem putchar_eq (h : Holds n rb q) (ch : UInt8) :
    mringbufferPutchar rb ch = mringbufferPut rb (some [ch]) 1 := by
  have hwrite := h.write_lt
  have hsize := h.size
  unfold mringbufferPutchar mringbufferPut mringbufferPutFflushCache
  by_cases hspace : mringbufferSpaceLen rb = 0
  · simp only [if_pos hspace]
  · have hone : ¬mringbufferSpaceLen rb < 1 := by omega
    simp only [if_neg hspace, if_neg hone]
    by_cases hlast : rb.writeIndex = rb.bufferSize-1
    · have hfirst : rb.bufferSize-rb.writeIndex = 1 := by omega
      simp only [if_pos hlast, hfirst]
      rfl
    · have hfirst : 1 < rb.bufferSize-rb.writeIndex := by omega
      simp only [if_neg hlast, if_pos hfirst]
      rfl

end Puts

section Gets

/-- A get removes the first bytes and returns them. -/
theorem Holds.get (h : Holds n rb q) (ptr : Bool) (length : ℕ) (removeCache : Bool) :
    (mringbufferGetInvalidCache rb ptr length removeCache).length = min length q.queue.length ∧
    (mringbufferGetInvalidCache rb ptr length removeCache).bytes =
      (if ptr then q.queue.take length else []) ∧
    Holds n (mringbufferGetInvalidCache rb ptr length removeCache).rb
      (q.remove n (min length q.queue.length)) := by
  have hinside := h.inside
  have htotal := h.total
  have hsize := h.size
  have hlen : (if q.queue.length < length then q.queue.length else length) =
      min length q.queue.length := by
    split_ifs <;> omega
  have htake : window rb.bufferPtr n rb.readIndex (min length q.queue.length) =
      q.queue.take length := by
    rw [h.front (Nat.min_le_right ..), ← take_eq_take_min]
  subst hsize
  unfold mringbufferGetInvalidCache
  simp only [h.dataLen, hlen]
  by_cases hempty : q.queue.length = 0
  · have hnil : q.queue = [] := eq_nil_of_length_eq_zero hempty
    have hzero : min length q.queue.length = 0 := by omega
    rw [hzero, hnil, take_nil, ite_self]
    refine ⟨rfl, rfl, h.remove (Nat.zero_le _) ⟨rfl, rfl, rfl, rfl⟩ (.inl ⟨hinside, rfl, rfl⟩)⟩
  rw [if_neg hempty, ← htake]
  by_cases hfirst : min length q.queue.length < rb.bufferSize-rb.readIndex
  · rw [if_pos hfirst, ← load_eq_window (by omega)]
    refine ⟨rfl, rfl, h.remove (Nat.min_le_right ..) ⟨rfl, rfl, rfl, rfl⟩ (.inl ⟨?_, rfl, rfl⟩)⟩
    omega
  · rw [if_neg hfirst, ← load_append_load hinside (by omega) (by omega)]
    refine ⟨rfl, rfl, h.remove (Nat.min_le_right ..) ⟨rfl, rfl, rfl, rfl⟩ (.inr ⟨?_, ?_, rfl⟩)⟩
    · omega
    · show min length q.queue.length-(rb.bufferSize-rb.readIndex)+rb.bufferSize = _
      omega

/-- `getchar` is a get of one byte. -/
theorem getchar_eq (h : Holds n rb q) (ch : Bool) :
    mringbufferGetchar rb ch = mringbufferGet rb ch 1 := by
  have hinside := h.inside
  have hsize := h.size
  unfold mringbufferGetchar mringbufferGet mringbufferGetInvalidCache
  by_cases hempty : mringbufferDataLen rb = 0
  · simp only [if_pos hempty]
  · have hone : ¬mringbufferDataLen rb < 1 := by omega
    simp only [if_neg hempty, if_neg hone]
    by_cases hlast : rb.readIndex = rb.bufferSize-1
    · have hfirst : rb.bufferSize-rb.readIndex = 1 := by omega
      simp only [if_pos hlast, hfirst]
      rfl
    · have hfirst : 1 < rb.bufferSize-rb.readIndex := by omega
      simp only [if_neg hlast, if_pos hfirst]
      rfl

/-- `peek` hands out the bytes up to the end of the buffer. -/
theorem Holds.peek (h : Holds n rb q) : ∃ d, q.Contiguous n d ∧ (mringbufferPeek rb).2.1 = d ∧
    ((mringbufferPeek rb).2.2.elim [] fun p => load (mringbufferPeek rb).1.bufferPtr p d) =
      q.queue.take d ∧ Holds n (mringbufferPeek rb).1 (q.remove n d) := by
  have hinside := h.inside
  have hsize := h.size
  have hhead := h.head
  have htake : ∀ d ≤ q.queue.length, rb.readIndex+d ≤ n →
      load rb.bufferPtr rb.readIndex d = q.queue.take d := by
    intro d hd hend
    rw [load_eq_window hend, h.front hd]
  subst hsize
  unfold mringbufferPeek
  simp only [h.dataLen]
  by_cases hempty : q.queue.length = 0
  · rw [if_pos hempty]
    refine ⟨0, ⟨⟨by omega, by omega⟩, by omega⟩, rfl, rfl, ?_⟩
    exact h.remove (Nat.zero_le _) ⟨rfl, rfl, rfl, rfl⟩ (.inl ⟨hinside, rfl, rfl⟩)
  rw [if_neg hempty]
  by_cases hfirst : q.queue.length < rb.bufferSize-rb.readIndex
  · rw [if_pos hfirst]
    refine ⟨q.queue.length, ⟨⟨le_refl _, by omega⟩, by omega⟩, rfl,
      htake _ (le_refl _) (by omega), ?_⟩
    exact h.remove (le_refl _) ⟨rfl, rfl, rfl, rfl⟩ (.inl ⟨by omega, rfl, rfl⟩)
  · rw [if_neg hfirst]
    refine ⟨rb.bufferSize-rb.readIndex, ⟨⟨by omega, by omega⟩, by omega⟩, rfl,
      htake _ (by omega) (by omega), ?_⟩
    refine h.remove (by omega) ⟨rfl, rfl, rfl, rfl⟩ (.inr ⟨by omega, ?_, rfl⟩)
    show 0+rb.bufferSize = _
    omega

end Gets

section Indices

variable {d i : ℕ}

section

variable (h : Holds n rb q)
include h

/-- The distances that `put_index` can append. -/
theorem Holds.putTo_iff (hi : i < n) (d : ℕ) :
    q.PutTo n i d ↔ 1 ≤ d ∧ d ≤ q.spare.length ∧ (rb.writeIndex+d = i ∨ rb.writeIndex+d = i+n) := by
  have htotal := h.total
  have htail : q.tail n = rb.writeIndex := by
    rw [Fifo.tail, h.head, h.write_eq]
  rw [Fifo.PutTo, htail]
  refine and_congr_right fun _ => and_congr_right fun hd => ?_
  exact add_mod_eq_iff h.write_lt hi (by omega)

/-- The distances that `get_index` can remove. -/
theorem Holds.getTo_iff (hi : i < n) (d : ℕ) :
    q.GetTo n i d ↔ 1 ≤ d ∧ d ≤ q.queue.length ∧ (rb.readIndex+d = i ∨ rb.readIndex+d = i+n) := by
  have htotal := h.total
  rw [Fifo.GetTo, h.head]
  refine and_congr_right fun _ => and_congr_right fun hd => ?_
  exact add_mod_eq_iff h.inside hi (by omega)

/-- The distance that `put_index` computes is appended. -/
theorem Holds.putSizeBytes (hto : q.PutTo n i d) :
    ∃ q', q.Does n (.putIndex i) ⟨(AudioRing.putSizeBytes rb d).2, []⟩ q' ∧
      Holds n (AudioRing.putSizeBytes rb d).1 q' := by
  rw [AudioRing.putSizeBytes, if_neg (Nat.one_le_iff_ne_zero.mp hto.1)]
  exact ⟨_, .inl ⟨d, hto, rfl, rfl⟩, (h.put (.null d) false).2⟩

/-- The distance that `get_index` computes is removed. -/
theorem Holds.getSizeBytes (hto : q.GetTo n i d) :
    ∃ q', q.Does n (.getIndex i) ⟨(AudioRing.getSizeBytes rb d).2, []⟩ q' ∧
      Holds n (AudioRing.getSizeBytes rb d).1 q' := by
  have hget := (h.get false d false).2.2
  rw [min_eq_left hto.2.1] at hget
  rw [AudioRing.getSizeBytes, if_neg (Nat.one_le_iff_ne_zero.mp hto.1)]
  exact ⟨_, .inl ⟨d, hto, rfl, rfl⟩, hget⟩

theorem Holds.putIndex (hi : i < n) :
    ∃ q', q.Does n (.putIndex i) ⟨(mringbufferPutIndex rb i).2, []⟩ q' ∧
      Holds n (mringbufferPutIndex rb i).1 q' := by
  have htotal := h.total
  have hinside := h.inside
  have hwrite := h.write_lt
  have hsize := h.size
  have hto := h.putTo_iff hi
  have hindex := h.write_cases
  unfold mringbufferPutIndex
  rw [h.spaceLen]
  split_ifs with hspace hcmp hgt hle hbetween
  · refine ⟨q, .inr ⟨fun ⟨d, hd⟩ => ?_, .inl rfl, rfl⟩, h⟩
    rw [hto] at hd
    omega
  · exact h.putSizeBytes ((hto _).mpr (by omega))
  · exact h.putSizeBytes ((hto _).mpr (by omega))
  · refine ⟨q, .inr ⟨fun ⟨d, hd⟩ => ?_, .inr (.inl rfl), rfl⟩, h⟩
    rw [hto] at hd
    omega
  · exact h.putSizeBytes ((hto _).mpr (by omega))
  · refine ⟨q, .inr ⟨fun ⟨d, hd⟩ => ?_, .inr (.inr rfl), rfl⟩, h⟩
    rw [hto] at hd
    omega

theorem Holds.getIndex (hi : i < n) :
    ∃ q', q.Does n (.getIndex i) ⟨(mringbufferGetIndex rb i).2, []⟩ q' ∧
      Holds n (mringbufferGetIndex rb i).1 q' := by
  have htotal := h.total
  have hinside := h.inside
  have hwrite := h.write_lt
  have hsize := h.size
  have hto := h.getTo_iff hi
  have hindex := h.write_cases
  unfold mringbufferGetIndex
  rw [h.dataLen]
  split_ifs with hempty hcmp hgt hle hbetween
  · refine ⟨q, .inr ⟨fun ⟨d, hd⟩ => ?_, .inl rfl, rfl⟩, h⟩
    rw [hto] at hd
    omega
  · exact h.getSizeBytes ((hto _).mpr (by omega))
  · exact h.getSizeBytes ((hto _).mpr (by omega))
  · refine ⟨q, .inr ⟨fun ⟨d, hd⟩ => ?_, .inr (.inl rfl), rfl⟩, h⟩
    rw [hto] at hd
    omega
  · exact h.getSizeBytes ((hto _).mpr (by omega))
  · refine ⟨q, .inr ⟨fun ⟨d, hd⟩ => ?_, .inr (.inr rfl), rfl⟩, h⟩
    rw [hto] at hd
    omega

end

end Indices

/-- The DMA channel changes a byte of the free space. -/
theorem Holds.dma (h : Holds n rb q) (hk : k < q.spare.length) (b : UInt8) :
    Holds n { rb with
        bufferPtr := Function.update rb.bufferPtr ((rb.writeIndex+k) % rb.bufferSize) b }
      { q with spare := q.spare.set k b } := by
  have htotal := h.total
  constructor
  · exact h.size
  · exact h.head
  · exact h.inside
  · rw [h.size, h.write_eq, Nat.mod_add_mod, add_assoc, window_set (le_refl n) (by omega),
      h.bytes, set_append_right _ _ (Nat.le_add_right ..), Nat.add_sub_cancel_left]
  · exact h.tail

theorem result_eq {k' : ℕ} {bytes bytes' : List UInt8} (hk : k = k') (hb : bytes = bytes') :
    (⟨k, bytes⟩ : Result) = ⟨k', bytes'⟩ := by
  rw [hk, hb]

/-- Each call does to the buffer what it does to the queue. -/
theorem Holds.call (h : Holds n rb q) {call : Call} (hcall : call.Inside n) :
    ∃ q', q.Does n call (rb.call call).2 q' ∧ Holds n (rb.call call).1 q' := by
  cases call with
  | put source =>
    have hput := h.put source false
    exact ⟨_, ⟨result_eq hput.1 rfl, rfl⟩, hput.2⟩
  | putFflushCache source fflushCache =>
    have hput := h.put source fflushCache
    exact ⟨_, ⟨result_eq hput.1 rfl, rfl⟩, hput.2⟩
  | putchar ch =>
    have hput := h.put (.bytes [ch]) false
    rw [Mringbuffer.call, putchar_eq h]
    exact ⟨_, ⟨result_eq hput.1 rfl, rfl⟩, hput.2⟩
  | putIndex i => exact h.putIndex hcall
  | get ptr length =>
    have hget := h.get ptr length false
    exact ⟨_, ⟨result_eq hget.1 hget.2.1, rfl⟩, hget.2.2⟩
  | getInvalidCache ptr length removeCache =>
    have hget := h.get ptr length removeCache
    exact ⟨_, ⟨result_eq hget.1 hget.2.1, rfl⟩, hget.2.2⟩
  | getchar ch =>
    have hget := h.get ch 1 false
    rw [Mringbuffer.call, getchar_eq h]
    exact ⟨_, ⟨result_eq hget.1 hget.2.1, rfl⟩, hget.2.2⟩
  | getIndex i => exact h.getIndex hcall
  | peek =>
    rcases h.peek with ⟨d, hmost, hlen, hbytes, hholds⟩
    refine ⟨_, ⟨d, hmost, result_eq hlen ?_, rfl⟩, hholds⟩
    rw [hlen]
    exact hbytes
  | dma k b =>
    by_cases hk : k < q.spare.length
    · rw [Mringbuffer.call, h.spaceLen, if_pos hk]
      exact ⟨_, ⟨rfl, rfl⟩, h.dma hk b⟩
    · rw [Mringbuffer.call, h.spaceLen, if_neg hk]
      refine ⟨q, ⟨rfl, ?_⟩, h⟩
      rw [set_eq_of_length_le (Nat.le_of_not_lt hk)]

/-- An empty buffer holds the empty queue. -/
theorem Holds.empty (hn : 0 < n) (pool : ℕ → UInt8) :
    Holds n (.empty pool n) (.empty pool n) where
  size := rfl
  head := rfl
  inside := hn
  bytes := rfl
  tail := .inl ⟨hn, rfl, rfl⟩

/-- Every list of calls on a buffer of capacity `n` has the results of a queue of that
capacity. -/
theorem mringbuffer_refines_fifo (hn : 1 ≤ n) (pool : ℕ → UInt8) (cs : List Call)
    (hcs : ∀ c ∈ cs, c.Inside n) :
    ∃ q, Allows (Fifo.Does n) (.empty pool n) cs
        (calls Mringbuffer.call (.empty pool n) cs).2 q ∧
      q.queue.length+q.spare.length = n := by
  have hcall : ∀ (rb : Mringbuffer) (q : Fifo) (c : Call), c.Inside n → Holds n rb q →
      ∃ q', q.Does n c (rb.call c).2 q' ∧ Holds n (rb.call c).1 q' :=
    fun _ _ _ hc h => h.call hc
  rcases calls_allowed hcall cs hcs (Holds.empty hn pool) with ⟨q, hallows, hholds⟩
  exact ⟨q, hallows, hholds.total⟩

/-- Two bytes are appended by index, one is taken by `peek`. -/
theorem mringbuffer_refines_fifo_sample :
    ∃ q, Allows (Fifo.Does 3) (.empty (fun _ => 7) 3)
        [.put (.bytes [1, 2]), .get true 1, .putIndex 0, .peek, .getIndex 1]
        [⟨2, []⟩, ⟨1, [1]⟩, ⟨1, []⟩, ⟨2, [2, 7]⟩, ⟨2^32-1, []⟩] q ∧
      q.queue.length+q.spare.length = 3 :=
  mringbuffer_refines_fifo (by decide) (fun _ => 7)
    [.put (.bytes [1, 2]), .get true 1, .putIndex 0, .peek, .getIndex 1] (by decide)

end PineVoice.AudioRing
