import PineVoice.SliceWrite

/-!
# Download to a plain flash partition

`netio/flash.c` writes a stream behind two reserved sectors. A call erases the sectors it needs
only if it starts at a sector boundary, so bytes that reach a sector no call has erased are
programmed over the old contents.
-/

namespace PineVoice.FlashNetio

open NorFlash Partitions Bootab List

/-- `netio_t` with the fields the flash operations use. -/
structure Netio where
  /-- Bytes written so far. -/
  offset : ℕ
  /-- Length of the partition. -/
  size : ℕ
  /-- Sector size. -/
  blockSize : ℕ
deriving DecidableEq, Repr

section Model

variable {σ : Type} (f : FlashOps σ) (node : PartitionInfo)

/-- The netio `netio_open` allocates, after `flash_open` found the partition. -/
def flashOpen : Netio := ⟨0, node.length, node.sectorSize⟩

/-- `fota_flash_erase`. -/
def fotaFlashErase (s : σ) (off : ℤ) (blockSize count : ℕ) : ℤ × σ :=
  if off % blockSize = 0 then
    let e := partitionErase f node s off count
    if e.1 < 0 then (-1, e.2) else (0, e.2)
  else (0, s)

/-- `flash_write`: the stored length, or `-1`. -/
def flashWrite (io : Netio) (s : σ) (buffer : List UInt8) : ℤ × Netio × σ :=
  let rest := (io.size+2^32-io.offset) % 2^32
  let length := if rest < buffer.length then rest else buffer.length
  let off := offT ((io.offset+io.blockSize*2) % 2^32)
  let e := fotaFlashErase f node s off io.blockSize (blockCount io.blockSize length)
  if e.1 < 0 then (-1, io, e.2)
  else
    let w := partitionWrite f node e.2 off (buffer.take length)
    if 0 ≤ w.1 then (length, { io with offset := (io.offset+length) % 2^32 }, w.2)
    else (-1, io, w.2)

/-- One call after the other, with all return values. -/
def flashWrites : Netio → σ → List (List UInt8) → List ℤ × σ
  | _, s, [] => ([], s)
  | io, s, d :: ds =>
    let r := flashWrite f node io s d
    let t := flashWrites r.2.1 r.2.2 ds
    (r.1 :: t.1, t.2)

end Model

section Condition

variable (node : PartitionInfo)

/-- A call at this offset is accepted: it is empty, or it lies below the sign
bit of `off_t` and the sectors it erases, if it erases, are whole sectors of
the partition. -/
def Accepted (off len : ℕ) : Prop :=
  len = 0 ∨ off+2*node.sectorSize < 2^31 ∧ (off % node.sectorSize = 0 →
    (off+2*node.sectorSize)/node.sectorSize+(len+node.sectorSize-1)/node.sectorSize ≤
      node.length/node.sectorSize)

/-- End of the bytes erased by the calls so far, after one more call. -/
def cleanEnd (off clean len : ℕ) : ℕ :=
  if off % node.sectorSize = 0 then
    max clean (off+(len+node.sectorSize-1)/node.sectorSize*node.sectorSize)
  else clean

/-- Every call is accepted, and every byte goes to an erased cell or to one
whose old contents have all its bits. Offsets count from the first sector
behind the reserved ones, and the calls so far have erased up to `clean`. -/
def Lands (old : Mem) : ℕ → ℕ → List (List UInt8) → Prop
  | _, _, [] => True
  | off, clean, d :: ds =>
    Accepted node off d.length ∧
      (∀ i, i < d.length → off+i < cleanEnd node off clean d.length ∨
        old (2*node.sectorSize+off+i) &&& d.getD i 0 = d.getD i 0) ∧
      Lands old (off+d.length) (cleanEnd node off clean d.length) ds

end Condition

section Step

variable {node : PartitionInfo} {off : ℕ} {d : List UInt8}

/-- The flash after a call was accepted. -/
def chunkWritten (node : PartitionInfo) (m : Mem) (off : ℕ) (d : List UInt8) : Mem :=
  program (if off % node.sectorSize = 0 then
    erase m (node.addr+(off+2*node.sectorSize))
      ((d.length+node.sectorSize-1)/node.sectorSize*node.sectorSize)
    else m) (node.addr+(off+2*node.sectorSize)) d

/-- Values of a call on a stream that fits, once its bounds are worked out. -/
theorem flashWrite_eq {σ : Type} (f : FlashOps σ) (s : σ)
    (hfit : off+d.length+2*node.sectorSize ≤ node.length) :
    flashWrite f node ⟨off, node.length, node.sectorSize⟩ s d =
      (let e := fotaFlashErase f node s (offT (off+2*node.sectorSize)) node.sectorSize
        (blockCount node.sectorSize d.length)
      if e.1 < 0 then (-1, ⟨off, node.length, node.sectorSize⟩, e.2)
      else
        let w := partitionWrite f node e.2 (offT (off+2*node.sectorSize)) d
        if 0 ≤ w.1 then ((d.length : ℤ), ⟨off+d.length, node.length, node.sectorSize⟩, w.2)
        else (-1, ⟨off, node.length, node.sectorSize⟩, w.2)) := by
  have hlt := node.addr_lt
  have hrest : (node.length+2^32-off) % 2^32 = node.length-off := by omega
  have hoff : (off+node.sectorSize*2) % 2^32 = off+2*node.sectorSize := by omega
  have hnext : (off+d.length) % 2^32 = off+d.length := by omega
  have hlen : (if node.length-off < d.length then node.length-off else d.length) = d.length :=
    if_neg (by omega)
  simp only [flashWrite, hrest, hoff, hlen, hnext, take_length]

theorem offT_mod {x g : ℕ} (h : x < 2^31) : offT x % g = 0 ↔ x % g = 0 := by
  rw [offT_of_lt h]
  omega

/-- The first byte of a call lies at a sector boundary of the partition when
its offset in the stream does. -/
theorem add_two_mul_mod (x g : ℕ) : (x+2*g) % g = x % g := Nat.add_mul_mod_self_right x 2 g

variable (hfit : off+d.length+2*node.sectorSize ≤ node.length) (hint : d.length < 2^31)

include hfit hint

/-- The erase of an accepted call. -/
theorem fotaFlashErase_accepted (dev : Nor) (hacc : Accepted node off d.length) :
    ∃ trace, fotaFlashErase norOps node dev (offT (off+2*node.sectorSize)) node.sectorSize
      (blockCount node.sectorSize d.length) = (0, ⟨if off % node.sectorSize = 0 then
          erase dev.mem (node.addr+(off+2*node.sectorSize))
            ((d.length+node.sectorSize-1)/node.sectorSize*node.sectorSize)
          else dev.mem, trace⟩) := by
  have hlt := node.addr_lt
  have hpos := node.sector_pos
  have hadd : d.length+node.sectorSize-1 < 2^32 := by omega
  rw [blockCount_eq hadd, fotaFlashErase]
  rcases eq_zero_or_pos d.length with h0 | hd
  · have hcount : (d.length+node.sectorSize-1)/node.sectorSize = 0 :=
      Nat.div_eq_of_lt (by omega)
    have hmem : (if off % node.sectorSize = 0 then
        erase dev.mem (node.addr+(off+2*node.sectorSize)) (0*node.sectorSize) else dev.mem) =
          dev.mem := by
      split
      · funext i
        exact erase_outside (by omega)
      · rfl
    rw [hcount, hmem]
    split
    · exact ⟨dev.trace, rfl⟩
    · exact ⟨dev.trace, rfl⟩
  · obtain ⟨hsign, hsect⟩ := hacc.resolve_left (by omega)
    have hcount : 0 < (d.length+node.sectorSize-1)/node.sectorSize :=
      Nat.div_pos (by omega) hpos
    by_cases ha : off % node.sectorSize = 0
    · have hle : (d.length+node.sectorSize-1)/node.sectorSize*node.sectorSize ≤ node.length :=
        (Nat.mul_le_mul_right _ ((Nat.le_add_left _ _).trans (hsect ha))).trans
          (Nat.div_mul_le_self node.length node.sectorSize)
      rw [if_pos ((offT_mod hsign).mpr (by rw [add_two_mul_mod]; exact ha)), offT_of_lt hsign,
        partitionErase_inside hcount (hsect ha), Nat.mod_eq_of_lt (by omega), if_pos ha]
      exact ⟨_, rfl⟩
    · rw [if_neg fun he => ha (by rw [←add_two_mul_mod]; exact (offT_mod hsign).mp he), if_neg ha]
      exact ⟨dev.trace, rfl⟩

/-- An accepted call stores its chunk over what is there after its erase. -/
theorem flashWrite_accepted (dev : Nor) (hacc : Accepted node off d.length) :
    ∃ trace, flashWrite norOps node ⟨off, node.length, node.sectorSize⟩ dev d =
      ((d.length : ℤ), ⟨off+d.length, node.length, node.sectorSize⟩,
        ⟨chunkWritten node dev.mem off d, trace⟩) := by
  obtain ⟨tr, he⟩ := fotaFlashErase_accepted hfit hint dev hacc
  rw [flashWrite_eq norOps dev hfit, he, chunkWritten]
  simp only
  rcases eq_zero_or_pos d.length with h0 | hd
  · rw [List.length_eq_zero_iff.mp h0, program_nil]
    exact ⟨tr, rfl⟩
  · obtain ⟨hsign, -⟩ := hacc.resolve_left (by omega)
    rw [offT_of_lt hsign, partitionWrite_inside hd (by omega)]
    exact ⟨_, rfl⟩

/-- A call that is not accepted fails. -/
theorem flashWrite_refused (dev : Nor) (hacc : ¬Accepted node off d.length) :
    (flashWrite norOps node ⟨off, node.length, node.sectorSize⟩ dev d).1 = -1 := by
  have hlt := node.addr_lt
  have hpos := node.sector_pos
  have hadd : d.length+node.sectorSize-1 < 2^32 := by omega
  rw [Accepted, not_or] at hacc
  obtain ⟨hd, hbad⟩ := hacc
  have hcount := blockCount_pos hpos hadd (pos_of_ne_zero hd)
  have hcount' := blockCount_le hpos hadd (pos_of_ne_zero hd)
  have hends : (fotaFlashErase norOps node dev (offT (off+2*node.sectorSize)) node.sectorSize
      (blockCount node.sectorSize d.length)).1 = -1 →
      (flashWrite norOps node ⟨off, node.length, node.sectorSize⟩ dev d).1 = -1 := by
    intro he
    simp only [flashWrite_eq norOps dev hfit, he]
    rfl
  by_cases hsign : off+2*node.sectorSize < 2^31
  · have hsect : off % node.sectorSize = 0 ∧ node.length/node.sectorSize <
        (off+2*node.sectorSize)/node.sectorSize+(d.length+node.sectorSize-1)/node.sectorSize := by
      by_contra hno
      exact hbad ⟨hsign, fun ha => by omega⟩
    obtain ⟨ha, hmany⟩ := hsect
    rw [←blockCount_eq hadd] at hmany
    have hdiv := Nat.div_le_self (off+2*node.sectorSize) node.sectorSize
    have hmod : ((off+2*node.sectorSize)/node.sectorSize+blockCount node.sectorSize d.length) %
        2^32 = (off+2*node.sectorSize)/node.sectorSize+blockCount node.sectorSize d.length :=
      Nat.mod_eq_of_lt (by omega)
    have hrefused : partitionErase norOps node dev (offT (off+2*node.sectorSize))
        (blockCount node.sectorSize d.length) = (einval, dev) := by
      rw [offT_of_lt hsign, partitionErase, if_neg (by omega), if_neg (by omega), Int.toNat_natCast,
        if_neg (by omega)]
    refine hends ?_
    rw [fotaFlashErase, if_pos ((offT_mod hsign).mpr (by rw [add_two_mul_mod]; exact ha)), hrefused]
    rfl
  · have hneg := offT_neg (Nat.le_of_not_lt hsign) (by omega)
    by_cases ha : offT (off+2*node.sectorSize) % node.sectorSize = 0
    · have hrefused : partitionErase norOps node dev (offT (off+2*node.sectorSize))
          (blockCount node.sectorSize d.length) = (einval, dev) := by
        rw [partitionErase, if_neg (by omega), if_pos hneg]
      refine hends ?_
      rw [fotaFlashErase, if_pos ha, hrefused]
      rfl
    · simp only [flashWrite_eq norOps dev hfit, fotaFlashErase, if_neg ha, partitionWrite,
        if_neg hd, if_pos hneg]
      rfl

end Step

/-- What the bytes behind the stored part look like: erased up to `clean` and
as they were behind it. -/
structure Ahead (node : PartitionInfo) (old m : Mem) (off clean : ℕ) : Prop where
  /-- Erased and not written yet. -/
  blank : ∀ i, off ≤ i → i < clean → m (2*node.sectorSize+i) = 0xFF
  /-- Not reached yet. -/
  same : ∀ i, off ≤ i → clean ≤ i → m (2*node.sectorSize+i) = old (2*node.sectorSize+i)

section Written

variable {node : PartitionInfo} {old m : Mem} {off clean : ℕ}

section

variable (h : Ahead node old (window m node.addr) off clean)
include h

/-- The flash behind the start of a chunk once its erase is done. -/
theorem Ahead.erased (d : List UInt8) :
    Ahead node old (window (if off % node.sectorSize = 0 then
      erase m (node.addr+(off+2*node.sectorSize))
        ((d.length+node.sectorSize-1)/node.sectorSize*node.sectorSize)
      else m) node.addr) off (cleanEnd node off clean d.length) := by
  rw [cleanEnd]
  split
  · constructor
    · intro i hi hc
      rw [window]
      by_cases hin : i < off+(d.length+node.sectorSize-1)/node.sectorSize*node.sectorSize
      · exact erase_inside (by omega) (by omega)
      · rw [erase_outside (by omega)]
        exact h.blank i hi (by omega)
    · intro i hi hc
      rw [window, erase_outside (by omega)]
      exact h.same i hi (by omega)
  · exact h

/-- A stored chunk leaves the flash behind it as the erase did. -/
theorem Ahead.written (d : List UInt8) :
    Ahead node old (window (chunkWritten node m off d) node.addr) (off+d.length)
      (cleanEnd node off clean d.length) := by
  have he := h.erased d
  rw [chunkWritten, window_program]
  constructor
  · intro i hi hc
    rw [program_outside (by omega)]
    exact he.blank i (by omega) hc
  · intro i hi hc
    rw [program_outside (by omega)]
    exact he.same i (by omega) hc

/-- A chunk is stored verbatim exactly when all of it goes to erased cells or
to cells that have its bits. -/
theorem holds_chunkWritten (d : List UInt8) :
    Holds (window (chunkWritten node m off d) node.addr) (2*node.sectorSize+off) d ↔
      ∀ i, i < d.length → off+i < cleanEnd node off clean d.length ∨
        old (2*node.sectorSize+off+i) &&& d.getD i 0 = d.getD i 0 := by
  have he := h.erased d
  rw [chunkWritten, window_program, add_comm off]
  rw [add_comm off] at he
  generalize window _ node.addr = mid at he ⊢
  have hbyte : ∀ i, i < d.length → program mid (2*node.sectorSize+off) d
      (2*node.sectorSize+off+i) = mid (2*node.sectorSize+(off+i)) &&& d.getD i 0 := by
    intro i hi
    rw [program_inside hi, add_assoc]
    simp [getElem?_eq_getElem hi]
  have hcell : ∀ i, i < d.length → (mid (2*node.sectorSize+(off+i)) &&& d.getD i 0 = d.getD i 0 ↔
      off+i < cleanEnd node off clean d.length ∨
        old (2*node.sectorSize+off+i) &&& d.getD i 0 = d.getD i 0) := by
    intro i hi
    by_cases hc : off+i < cleanEnd node off clean d.length
    · rw [he.blank (off+i) (by omega) hc, and_blank]
      exact ⟨fun _ => .inl hc, fun _ => rfl⟩
    · rw [he.same (off+i) (by omega) (by omega), add_assoc]
      exact ⟨.inr, fun h => h.resolve_left hc⟩
  constructor
  · intro hheld i hi
    rw [←hcell i hi, ←hbyte i hi]
    exact hheld.getD hi 0
  · intro hall
    refine holds_of_getD 0 fun i hi => ?_
    rw [hbyte i hi, hcell i hi]
    exact hall i hi

end

/-- What lies before a chunk is left alone. -/
theorem agree_chunkWritten (d : List UInt8) :
    Agree (window (chunkWritten node m off d) node.addr) (window m node.addr) 0
      (2*node.sectorSize+off) := by
  intro i _ hi
  rw [chunkWritten, window_program, program_outside (by omega)]
  split
  · exact erase_outside (by omega)
  · rfl

end Written

/-- A run that succeeds leaves alone what lies before it, and it stores the
chunks exactly when they land. -/
theorem flashWrites_spec {node : PartitionInfo} {old : Mem} {chunks : List (List UInt8)}
    (hint : ∀ d ∈ chunks, d.length < 2^31) (dev : Nor) {off clean : ℕ}
    (hfit : off+chunks.flatten.length+2*node.sectorSize ≤ node.length)
    (h : Ahead node old (window dev.mem node.addr) off clean) :
    let r := flashWrites norOps node ⟨off, node.length, node.sectorSize⟩ dev chunks
    (r.1 = chunks.map (fun d => (d.length : ℤ)) →
      Agree (window r.2.mem node.addr) (window dev.mem node.addr) 0 (2*node.sectorSize+off)) ∧
    (r.1 = chunks.map (fun d => (d.length : ℤ)) ∧
        Holds (window r.2.mem node.addr) (2*node.sectorSize+off) chunks.flatten ↔
      Lands node old off clean chunks) := by
  induction chunks generalizing off clean dev with
  | nil => exact ⟨fun _ => Agree.refl _ _ _, fun _ => trivial, fun _ => ⟨rfl, trivial⟩⟩
  | cons d ds ih =>
    rw [flatten_cons, length_append] at hfit
    have hd := hint d mem_cons_self
    by_cases hacc : Accepted node off d.length
    · obtain ⟨tr, hcall⟩ := flashWrite_accepted (by omega) hd dev hacc
      obtain ⟨hframe, hiff⟩ := ih (fun x hx => hint x (mem_cons_of_mem d hx))
        ⟨chunkWritten node dev.mem off d, tr⟩ (by omega) (h.written d)
      dsimp only at hframe hiff ⊢
      have hcut : Agree (window (chunkWritten node dev.mem off d) node.addr)
        (window dev.mem node.addr) 0 (2*node.sectorSize+off) := agree_chunkWritten d
      have hstored := holds_chunkWritten h d
      simp only [flashWrites, hcall, map_cons, List.cons.injEq, true_and, flatten_cons,
        holds_append, Lands]
      rw [add_assoc, ←hiff, ←hstored]
      generalize flashWrites norOps node ⟨off+d.length, node.length, node.sectorSize⟩
        ⟨chunkWritten node dev.mem off d, tr⟩ ds = r at hframe ⊢
      have hkeeps : r.1 = ds.map (fun d => (d.length : ℤ)) →
          (Holds (window r.2.mem node.addr) (2*node.sectorSize+off) d ↔
            Holds (window (chunkWritten node dev.mem off d) node.addr) (2*node.sectorSize+off) d) :=
        fun he => ⟨fun hh => hh.congr fun i h1 h2 => (hframe he i (by omega) (by omega)).symm,
          fun hh => hh.congr fun i h1 h2 => hframe he i (by omega) (by omega)⟩
      refine ⟨fun he => ((hframe he).mono le_rfl (by omega)).trans hcut, ?_, ?_⟩
      · rintro ⟨he, hd, hrest⟩
        exact ⟨hacc, (hkeeps he).mp hd, he, hrest⟩
      · rintro ⟨-, hd, he, hrest⟩
        exact ⟨he, (hkeeps he).mpr hd, hrest⟩
    · have hfail := flashWrite_refused (by omega) hd dev hacc
      have hne : (flashWrites norOps node ⟨off, node.length, node.sectorSize⟩ dev (d :: ds)).1 ≠
          (d :: ds).map (fun d => (d.length : ℤ)) := by
        rw [map_cons]
        intro he
        have hhead := (List.cons.inj he).1
        omega
      exact ⟨fun he => absurd he hne, fun he => absurd he.1 hne, fun hl => absurd hl.1 hacc⟩

/-- A stream that fits behind the two reserved sectors, in chunks given to
`flash_write` one after the other: every call succeeds and the partition then
holds the stream behind these sectors exactly when every call is accepted and
every byte goes to a cell the download has erased or whose old contents have
all the bits of the byte. -/
theorem flashWrites_stores_iff {node : PartitionInfo} (dev : Nor) {chunks : List (List UInt8)}
    (hint : ∀ d ∈ chunks, d.length < 2^31)
    (hfit : 2*node.sectorSize+chunks.flatten.length ≤ node.length) :
    ((flashWrites norOps node (flashOpen node) dev chunks).1 =
        chunks.map (fun d => (d.length : ℤ)) ∧
      readBytes (window (flashWrites norOps node (flashOpen node) dev chunks).2.mem node.addr)
        (2*node.sectorSize) chunks.flatten.length = chunks.flatten) ↔
    Lands node (window dev.mem node.addr) 0 0 chunks := by
  have hstart : Ahead node (window dev.mem node.addr) (window dev.mem node.addr) 0 0 :=
    ⟨fun _ _ hi => absurd hi (Nat.not_lt_zero _), fun _ _ _ => rfl⟩
  rw [←(flashWrites_spec hint dev (by omega) hstart).2, add_zero]
  refine and_congr_right fun _ => ⟨fun he => ?_, fun hh => hh.readBytes_eq⟩
  rw [←he]
  exact holds_readBytes _ _ _

section Sectors

/-- No chunk crosses into a sector it does not start: each starts at a sector
boundary or ends in the sector it starts in. -/
def Sectorwise (g : ℕ) : ℕ → List (List UInt8) → Prop
  | _, [] => True
  | off, d :: ds => (off % g = 0 ∨ off % g+d.length ≤ g) ∧ Sectorwise g (off+d.length) ds

/-- A sector boundary at or behind an offset inside a sector lies behind the
end of that sector. -/
theorem sector_end_le {g off clean : ℕ} (hin : off % g ≠ 0) (hle : off ≤ clean)
    (hclean : clean % g = 0) : off-off % g+g ≤ clean := by
  have hoff := Nat.div_add_mod off g
  have hdvd := Nat.div_add_mod clean g
  have hlt : g*(off/g) < g*(clean/g) := by omega
  have hmul := Nat.mul_le_mul_left g (Nat.lt_of_mul_lt_mul_left hlt)
  rw [Nat.succ_eq_add_one, mul_add] at hmul
  omega

/-- Sectors erased from a boundary on end inside a partition of whole sectors
when the bytes they are erased for do. -/
theorem sectors_le {g a len total : ℕ} (hg : 0 < g) (hwhole : g ∣ total) (ha : a % g = 0)
    (hle : a+len ≤ total) : a/g+(len+g-1)/g ≤ total/g := by
  have hdiv := Nat.div_add_mod a g
  obtain ⟨k, rfl⟩ := hwhole
  rw [Nat.mul_div_cancel_left k hg]
  have hak : a/g ≤ k := Nat.le_of_mul_le_mul_left (by omega : g*(a/g) ≤ g*k) hg
  have hsplit : g*k = g*(a/g)+g*(k-a/g) := by rw [←mul_add]; congr 1; omega
  have hceil : (len+g-1)/g ≤ k-a/g := by
    refine Nat.le_of_lt_succ ((Nat.div_lt_iff_lt_mul hg).mpr ?_)
    rw [Nat.succ_mul, mul_comm]
    omega
  omega

/-- In a partition of whole sectors below two gigabytes such chunks land
whatever the old contents are. -/
theorem lands_of_sectorwise {node : PartitionInfo} (hwhole : node.sectorSize ∣ node.length)
    (hsmall : node.length < 2^31) (old : Mem) {off clean : ℕ} {chunks : List (List UInt8)}
    (hfit : off+chunks.flatten.length+2*node.sectorSize ≤ node.length) (hle : off ≤ clean)
    (hclean : clean % node.sectorSize = 0) (h : Sectorwise node.sectorSize off chunks) :
    Lands node old off clean chunks := by
  induction chunks generalizing off clean with
  | nil => trivial
  | cons d ds ih =>
    rw [flatten_cons, length_append] at hfit
    obtain ⟨hd, hds⟩ := h
    have hg := node.sector_pos
    have hround := le_roundUp hg d.length
    have hacc : Accepted node off d.length := by
      refine .inr ⟨by omega, fun ha => sectors_le hg hwhole ?_ (by omega)⟩
      rw [add_two_mul_mod]
      exact ha
    have hend : off+d.length ≤ cleanEnd node off clean d.length ∧
        cleanEnd node off clean d.length % node.sectorSize = 0 := by
      rw [cleanEnd]
      split
      · next ha =>
        refine ⟨by omega, ?_⟩
        rcases Nat.le_total clean
          (off+(d.length+node.sectorSize-1)/node.sectorSize*node.sectorSize) with hm | hm
        · rw [max_eq_right hm, Nat.add_mul_mod_self_right, ha]
        · rw [max_eq_left hm, hclean]
      · next ha =>
        have hsector := sector_end_le ha hle hclean
        exact ⟨by omega, hclean⟩
    exact ⟨hacc, fun i hi => .inl (by omega), ih (by omega) hend.1 hend.2 hds⟩

end Sectors

theorem sector4096_pos : 0 < 4096 := by decide

theorem sector4096_le : 4096 ≤ 2^31 := by decide

theorem fourSectors_addr_lt : 0+4096+16384 < 2^32 := by decide

/-- Four sectors of 4096 bytes. -/
def fourSectors : PartitionInfo where
  description := []
  baseAddr := 0
  startAddr := 4096
  length := 16384
  sectorSize := 4096
  sector_pos := sector4096_pos
  sector_le := sector4096_le
  addr_lt := fourSectors_addr_lt

/-- A flash whose cells are all programmed. -/
def usedFlash : Nor := ⟨fun _ => 0, []⟩

/-- A chunk of equal bytes. -/
def chunk (n : ℕ) : List UInt8 := List.replicate n 0xA5

@[simp] theorem chunk_length (n : ℕ) : (chunk n).length = n := length_replicate

/-- Three chunks of one size. -/
def threeChunks (n : ℕ) : List (List UInt8) := [chunk n, chunk n, chunk n]

theorem threeChunks_flatten (n : ℕ) : (threeChunks n).flatten.length = 3*n := by
  simp only [threeChunks, flatten_cons, flatten_nil, length_append, chunk_length, length_nil]
  omega

theorem threeChunks_length {n : ℕ} (hn : n < 2^31) : ∀ d ∈ threeChunks n, d.length < 2^31 := by
  intro d hd
  simp only [threeChunks, mem_cons, not_mem_nil, or_false, or_self] at hd
  rw [hd, chunk_length]
  exact hn

/-- Chunks of half a sector are stored over anything. -/
theorem flashWrites_stores_halves :
    (flashWrites norOps fourSectors (flashOpen fourSectors) usedFlash (threeChunks 2048)).1 =
        (threeChunks 2048).map (fun d => (d.length : ℤ)) ∧
      readBytes (window (flashWrites norOps fourSectors (flashOpen fourSectors) usedFlash
        (threeChunks 2048)).2.mem fourSectors.addr) (2*fourSectors.sectorSize)
        (threeChunks 2048).flatten.length = (threeChunks 2048).flatten := by
  refine (flashWrites_stores_iff usedFlash (threeChunks_length (by decide)) ?_).mpr ?_
  · rw [threeChunks_flatten]
    decide
  · refine lands_of_sectorwise ⟨4, rfl⟩ (by decide) _ ?_ le_rfl rfl ?_
    · rw [threeChunks_flatten]
      decide
    · simp only [Sectorwise, threeChunks, chunk_length]
      decide

/-- A byte of a stream that was stored. -/
theorem stored_byte {m : Mem} {off i : ℕ} {s : List UInt8} (h : readBytes m off s.length = s)
    (hi : i < s.length) : m (off+i) = s.getD i 0 := by
  have hheld := holds_readBytes m off s.length
  rw [h] at hheld
  exact hheld.getD hi 0

/-- Chunks of 1460 bytes: all calls succeed, but the third one starts inside
the first sector and reaches the second, which no call has erased. -/
theorem flashWrites_crosses :
    (flashWrites norOps fourSectors (flashOpen fourSectors) usedFlash (threeChunks 1460)).1 =
        [1460, 1460, 1460] ∧
      window (flashWrites norOps fourSectors (flashOpen fourSectors) usedFlash
        (threeChunks 1460)).2.mem fourSectors.addr (2*4096+4096) = 0 ∧
      readBytes (window (flashWrites norOps fourSectors (flashOpen fourSectors) usedFlash
        (threeChunks 1460)).2.mem fourSectors.addr) (2*4096)
        (threeChunks 1460).flatten.length ≠ (threeChunks 1460).flatten := by
  have hreturns : (flashWrites norOps fourSectors (flashOpen fourSectors) usedFlash
      (threeChunks 1460)).1 = [1460, 1460, 1460] := by decide +kernel
  have hbyte : window (flashWrites norOps fourSectors (flashOpen fourSectors) usedFlash
      (threeChunks 1460)).2.mem fourSectors.addr (2*4096+4096) = 0 := by decide +kernel
  refine ⟨hreturns, hbyte, fun he => ?_⟩
  have hin : 4096 < (threeChunks 1460).flatten.length := by
    rw [threeChunks_flatten]
    decide
  have hdata : (threeChunks 1460).flatten.getD 4096 0 = 0xA5 := by decide +kernel
  have hget := stored_byte he hin
  rw [hbyte, hdata] at hget
  exact absurd hget (by decide)

end PineVoice.FlashNetio
