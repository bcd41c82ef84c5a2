import PineVoice.KvStep

/-!
# Writing a record and scanning it again

`kvblock_set` programs a record behind the last one, and `kvblock_search`
started there walks over the key to its terminator. On the way it also
looks for text lines, so a key that contains a line of its own is reported
as a read-only entry instead.
-/

namespace PineVoice.Kv

open NorFlash List

/-- The scanner started at an offset reports a live read-write record there,
with this key, value and version. -/
def Recovered (size : ℕ) (m : Mem) (block off : ℕ) (key value : List UInt8) (version : ℕ) :
    Prop :=
  ∃ node, kvblockSearch size m block off = some node ∧ node.block = block ∧ node.rw = true ∧
    node.valid = true ∧ node.headOffset = off ∧ Holds m node.headOffset (key ++ [0]) ∧
    node.valueOffset = node.headOffset+key.length+5 ∧ node.valSize = value.length ∧
    readBytes m node.valueOffset node.valSize = value ∧ node.version.toNat = version ∧
    node.nextOffset = off+align4 (key.length+value.length+6)+4

/-- The buffer starts with the key. -/
theorem holds_key {m : Mem} {off : ℕ} {key value : List UInt8} {version : UInt8}
    (h : Holds m off (recordBuffer key value version)) : Holds m off key := by
  simp only [recordBuffer, append_assoc] at h
  exact ((holds_append _ _ _ _).mp h).1

/-- A line of text without zero bytes is reported as a read-only entry. -/
theorem searchLoop_line (size block head : ℕ) {m : Mem} {bs : List UInt8} {c : ℕ}
    {delim : Option ℕ} (n : ℕ) (hb : Holds m c bs) (h0 : 0 ∉ bs)
    (hq : textQuiet delim.isSome bs = false) :
    ∃ node, searchLoop size m block head (bs.length+n) c delim = some node ∧ node.rw = false := by
  induction bs generalizing c delim with
  | nil => cases hq
  | cons b bs ih =>
    obtain ⟨hm, hr⟩ := hb
    rw [mem_cons, not_or] at h0
    obtain ⟨hb0, h0⟩ := h0
    have hn : (b :: bs).length+n = (bs.length+n)+1 := by rw [length_cons]; omega
    rw [textQuiet, if_neg (Ne.symm hb0)] at hq
    rw [hn, searchLoop.eq_def]
    dsimp only
    rw [hm, if_neg (Ne.symm hb0)]
    by_cases he : b = 0x3D
    · rw [if_pos he] at hq ⊢
      exact ih hr h0 hq
    rw [if_neg he] at hq ⊢
    by_cases hl : b = 0x0A
    · rw [if_pos hl] at hq ⊢
      cases delim with
      | none => exact ih hr h0 (by simpa using hq)
      | some d => exact ⟨_, rfl, rfl⟩
    rw [if_neg hl] at hq ⊢
    by_cases hc : b = 0x0D
    · rw [if_pos hc] at hq ⊢
      exact ih hr h0 hq
    rw [if_neg hc] at hq ⊢
    refine ih hr h0 ?_
    by_cases hp : isprint b = true
    · simpa [hp] using hq
    · simpa [hp] using hq

section Write

variable {kv : Kvset} {id : ℕ} {key value : List UInt8}

/-- The written bytes are a record with an erased flag word once the scanner
passes over the key. -/
theorem recovered_of_quiet {m : Mem} {size off version : ℕ} (block : ℕ) (hsize : size < 65536)
    (hblank : Blank m off size) (hst : Storable key value)
    (hroom : off+(align4 (key.length+value.length+6)+4) ≤ size) (hversion : version ≤ 255) :
    Recovered size (program m off (recordBuffer key value (UInt8.ofNat (version &&& 0xFF))))
      block off key value version := by
  have hbyte : (UInt8.ofNat (version &&& 0xFF)).toNat = version := by
    have hand : version &&& 0xFF = version % 2^8 := Nat.and_two_pow_sub_one_eq_mod version 8
    rw [UInt8.toNat_ofNat']
    omega
  generalize UInt8.ofNat (version &&& 0xFF) = byte at hbyte ⊢
  have hheld := holds_fresh hst byte hblank hroom
  rw [Rec.fresh_body] at hheld
  have hsearch := kvblockSearch_rec hheld block hroom hsize
  have hvalid := (Rec.fresh hst byte).node_valid block off
  obtain ⟨hkey, hnul, -, -, -, -, hvalue, -, -⟩ := Rec.holds_bytes hheld
  refine ⟨_, hsearch, rfl, rfl, hvalid, rfl, ?_, rfl, rfl, hvalue.readBytes_eq, hbyte, ?_⟩
  · rw [holds_append]
    exact ⟨hkey, hnul, trivial⟩
  · change off+(align4 (key.length+value.length+6)+4) = _
    omega

/-- A key with a line of its own hides the record. -/
theorem not_recovered_of_line {m : Mem} {size off version : ℕ} (block : ℕ)
    (hkey : 0 < key.length) (hnul : 0 ∉ key) (hheld : Holds m off key)
    (hroom : off+key.length < size) (hline : textQuiet false key = false) :
    ¬Recovered size m block off key value version := by
  have hfirst : m off ≠ 0 := by
    have hb := hheld.getD hkey 0
    rw [Nat.add_zero] at hb
    rw [hb, getD_eq_getElem?_getD, getElem?_eq_getElem hkey]
    exact fun hz => hnul (hz ▸ getElem_mem hkey)
  have hfuel : size-1-off = key.length+(size-1-off-key.length) := by omega
  obtain ⟨line, hsearch, hro⟩ := searchLoop_line size block off (size-1-off-key.length) hheld
    hnul (show textQuiet (none : Option ℕ).isSome key = false from hline)
  rw [←hfuel] at hsearch
  rintro ⟨node, hnode, -, hrw, -⟩
  rw [kvblockSearch, skipZeros_of_ne hfirst, hsearch, Option.some.injEq] at hnode
  rw [←hnode, hro] at hrw
  cases hrw

/-- Codec round trip: in a block with room whose bytes from the write offset
on are erased, `kvblock_set` stores the record, and the scanner started at
the returned offset recovers it exactly when the key contains no line that
reads as a text entry. -/
theorem kvblockSet_recovered_iff {version : ℕ} (hsize : kv.size < 65536)
    (hblank : Blank (kv.mem id) (kv.blocks id).writeOffset kv.size)
    (hkey : 1 ≤ key.length ∧ key.length ≤ 63) (hnul : 0 ∉ key) (hvalue : 1 ≤ value.length)
    (hsum : key.length+value.length < 498) (hversion : 1 ≤ version ∧ version ≤ 255)
    (hroom : (kv.blocks id).writeOffset+(align4 (key.length+value.length+6)+4)+4 ≤ kv.size) :
    ∃ (o : ℕ) (kv' : Kvset), kvblockSet kv id key value version = ((o : ℤ), kv') ∧
      (Recovered kv'.size (kv'.mem id) id o key value version ↔
        textQuiet false key = true) := by
  have hset := kvblockSet_blank hblank hkey.1 hkey.2 (by omega) hroom version
  generalize (kv.blocks id).counted _ = block at hset
  have hmem : ((kv.issue (.write (id*kv.size+(kv.blocks id).writeOffset)
      (recordBuffer key value (UInt8.ofNat (version &&& 0xFF))))).setBlock id block).mem id =
      program (kv.mem id) (kv.blocks id).writeOffset
        (recordBuffer key value (UInt8.ofNat (version &&& 0xFF))) :=
    mem_issue_write kv id (kv.blocks id).writeOffset _
  have hsame : ((kv.issue (.write (id*kv.size+(kv.blocks id).writeOffset)
      (recordBuffer key value (UInt8.ofNat (version &&& 0xFF))))).setBlock id block).size =
      kv.size := rfl
  refine ⟨(kv.blocks id).writeOffset, _, hset, ?_⟩
  rw [hsame, hmem]
  constructor
  · intro hrec
    by_contra hline
    have hspec := align4_spec (key.length+value.length+6)
    have hbuffer := holds_program (hblank.mono le_rfl (by rw [recordBuffer_length]; omega) :
      Blank (kv.mem id) (kv.blocks id).writeOffset ((kv.blocks id).writeOffset+
        (recordBuffer key value (UInt8.ofNat (version &&& 0xFF))).length))
    exact not_recovered_of_line id hkey.1 hnul (holds_key hbuffer) (by omega)
      (Bool.eq_false_of_not_eq_true hline) hrec
  · intro hquiet
    exact recovered_of_quiet id hsize hblank
      ⟨hkey.1, hkey.2, hnul, hquiet, hvalue, hsum⟩ (by omega) hversion.2

end Write

/-- One erased block of 512 bytes. -/
def erasedBlock : Kvset := ⟨fun _ => 0xFF, 512, 1, fun _ => .zero, 0, none, []⟩

/-- An ordinary key is recovered. -/
theorem kvblockSet_recovered_k :
    ∃ (o : ℕ) (kv' : Kvset), kvblockSet erasedBlock 0 [0x6B] [1, 2] 255 = ((o : ℤ), kv') ∧
      Recovered kv'.size (kv'.mem 0) 0 o [0x6B] [1, 2] 255 := by
  obtain ⟨o, kv', hset, hiff⟩ : ∃ (o : ℕ) (kv' : Kvset),
      kvblockSet erasedBlock 0 [0x6B] [1, 2] 255 = ((o : ℤ), kv') ∧
        (Recovered kv'.size (kv'.mem 0) 0 o [0x6B] [1, 2] 255 ↔ textQuiet false [0x6B] = true) :=
    kvblockSet_recovered_iff (by decide) (fun _ _ _ => rfl) (by decide) (by decide) (by decide)
      (by decide) (by decide) (by decide)
  exact ⟨o, kv', hset, hiff.mpr (by decide)⟩

/-- The key `a=b` with a line feed behind it is stored, and then reported as
the read-only entry `a` with the value `b`. -/
theorem kvblockSet_line_key :
    (kvblockSet erasedBlock 0 [0x61, 0x3D, 0x62, 0x0A] [1] 1).1 = 0 ∧
      kvblockSearch 512 ((kvblockSet erasedBlock 0 [0x61, 0x3D, 0x62, 0x0A] [1] 1).2.mem 0) 0 0 =
        some (roNode 0 0 1 3) ∧
      ¬Recovered 512 ((kvblockSet erasedBlock 0 [0x61, 0x3D, 0x62, 0x0A] [1] 1).2.mem 0) 0 0
        [0x61, 0x3D, 0x62, 0x0A] [1] 1 := by
  have hsearch : kvblockSearch 512
      ((kvblockSet erasedBlock 0 [0x61, 0x3D, 0x62, 0x0A] [1] 1).2.mem 0) 0 0 =
        some (roNode 0 0 1 3) := by decide +kernel
  refine ⟨by decide +kernel, hsearch, ?_⟩
  rintro ⟨node, hnode, -, hrw, -⟩
  rw [hsearch, Option.some.injEq] at hnode
  rw [←hnode] at hrw
  exact absurd hrw (by decide)

end PineVoice.Kv
