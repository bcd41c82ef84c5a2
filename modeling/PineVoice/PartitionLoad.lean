import PineVoice.PartitionOpen

/-!
# Which entries of the table can be opened

`partition_init` writes the record of an entry at the place of the entry, but counts only the
entries that lie on a flash, and `partition_open` looks at as many records as were counted. A
record whose name starts with the text asked for hides those behind it.
-/

namespace PineVoice.Mtb

open List

/-- `partition_init` fills the record of an entry. -/
def SysPartition.loaded (w : ℕ) (flashes : List FlashInfo) (p : SysPartition) : Bool :=
  flashes.any fun flash => 0 < flash.sectorCount && flash.covers w p

/-- Only the record of an entry that is filled has a sector size; the others have an empty
name. -/
def Marked (w : ℕ) (flashes : List FlashInfo) (p : SysPartition) (scn : Scn) : Prop :=
  scn.used = p.loaded w flashes ∧
    (scn.used = false → scn.description = Scn.unused.description)

section Load

variable {done : List FlashInfo} {flash : FlashInfo} {w idx : ℕ}

variable {p : SysPartition} {ps : List SysPartition} {scns : List Scn} {flashes : List FlashInfo}

theorem loaded_append_of_empty (hcount : ¬0 < flash.sectorCount) :
    p.loaded w (done ++ [flash]) = p.loaded w done := by
  simp [SysPartition.loaded, hcount]

theorem loaded_append (hcount : 0 < flash.sectorCount) :
    p.loaded w (done ++ [flash]) = (p.loaded w done || flash.covers w p) := by
  simp [SysPartition.loaded, hcount]

theorem loadEntry_marked {scn scn' : Scn} {k : ℕ} (hcount : 0 < flash.sectorCount)
    (hmarked : Marked w done p scn) (h : loadEntry w flash idx p scn = some (scn', k)) :
    Marked w (done ++ [flash]) p scn' := by
  unfold loadEntry at h
  rw [Marked, loaded_append hcount]
  by_cases hcovers : flash.covers w p = true
  · rw [if_pos hcovers] at h
    obtain ⟨hsound, heq⟩ := Option.ite_none_right_eq_some.mp h
    cases heq
    have hused : (scn.fill flash idx p).used = true := bne_iff_ne.mpr hsound.2.1
    rw [hused, hcovers, Bool.or_true]
    exact ⟨rfl, nofun⟩
  · rw [if_neg hcovers] at h
    cases h
    rw [Bool.eq_false_iff.mpr hcovers, Bool.or_false]
    exact hmarked

theorem loadFlash_marked (hcount : 0 < flash.sectorCount)
    (hmarked : List.Forall₂ (Marked w done) ps scns) :
    ∀ {scns' : List Scn} {k : ℕ}, loadFlash w flash idx ps scns = some (scns', k) →
      List.Forall₂ (Marked w (done ++ [flash])) ps scns' := by
  induction hmarked with
  | nil =>
    intro scns' k h
    cases h
    exact .nil
  | cons hone _ ih =>
    intro scns' k h
    obtain ⟨⟨new, m⟩, hentry, hrest⟩ := Option.bind_eq_some_iff.mp h
    obtain ⟨⟨rest, n⟩, hload, heq⟩ := Option.map_eq_some_iff.mp hrest
    cases heq
    exact .cons (loadEntry_marked hcount hone hentry) (ih hload)

theorem loadFlashes_marked :
    ∀ {done : List FlashInfo} {idx : ℕ} {a a' : PartArray},
      List.Forall₂ (Marked w done) ps a.scnList → loadFlashes w ps flashes idx a = some a' →
      List.Forall₂ (Marked w (done ++ flashes)) ps a'.scnList := by
  induction flashes with
  | nil =>
    intro done idx a a' hmarked h
    cases h
    rwa [append_nil]
  | cons flash rest ih =>
    intro done idx a a' hmarked h
    unfold loadFlashes at h
    rw [append_cons]
    split_ifs at h with hcount
    · obtain ⟨⟨scns, k⟩, hload, hrest⟩ := Option.bind_eq_some_iff.mp h
      exact ih (loadFlash_marked hcount hmarked hload) hrest
    · refine ih (hmarked.imp fun p scn hone => ?_) h
      rwa [Marked, loaded_append_of_empty hcount]

theorem marked_unused (p : SysPartition) : Marked w [] p Scn.unused := ⟨rfl, fun _ => rfl⟩

theorem countP_used (h : List.Forall₂ (Marked w flashes) ps scns) :
    scns.countP Scn.used = ps.countP (SysPartition.loaded w flashes) := by
  induction h with
  | nil => rfl
  | cons hone _ ih => rw [countP_cons, countP_cons, ih, hone.1]

end Load

/-- `partition_init` fills the record of the entry. -/
def ImtbEntry.loaded (w flashStart : ℕ) (flashes : List FlashInfo) (e : ImtbEntry) : Bool :=
  (sysPartition flashStart [] e).loaded w flashes

/-- The records hold the entries that were filled, and are as many as are counted. -/
structure Loaded (w flashStart : ℕ) (flashes : List FlashInfo) (residue : ℕ → List UInt8)
    (table : List ImtbEntry) (a : PartArray) : Prop where
  /-- As many records as entries. -/
  length : a.scnList.length = table.length
  /-- What is counted. -/
  num : a.num = table.countP (ImtbEntry.loaded w flashStart flashes)
  /-- The record of an entry that was filled. -/
  filled : ∀ {i : ℕ} {e : ImtbEntry} {scn : Scn}, table[i]? = some e →
    a.scnList[i]? = some scn → e.loaded w flashStart flashes = true →
      scn.description = (sysPartition flashStart (residue i) e).imageName ∧
      scn.baseAddr+scn.startAddr = (sysPartition flashStart [] e).partAddr ∧
      scn.length = (sysPartition flashStart [] e).partSize ∧ scn.idx < flashes.length
  /-- The record of another entry. -/
  empty : ∀ {i : ℕ} {e : ImtbEntry} {scn : Scn}, table[i]? = some e →
    a.scnList[i]? = some scn → e.loaded w flashStart flashes = false →
      scn.description = Scn.unused.description

section Calls

variable {w flashStart : ℕ} {flashes : List FlashInfo} {residue : ℕ → List UInt8}
variable {table : List ImtbEntry} {a : PartArray}

theorem getSysPartition_countP :
    (getSysPartition flashStart residue table).countP (SysPartition.loaded w flashes) =
      table.countP (ImtbEntry.loaded w flashStart flashes) := by
  have hfirst : table.countP (ImtbEntry.loaded w flashStart flashes) =
      (table.zipIdx.map Prod.fst).countP (ImtbEntry.loaded w flashStart flashes) := by
    rw [zipIdx_map_fst]
  rw [hfirst, getSysPartition, countP_map, countP_map]
  rfl

/-- `partition_init` loads the table. -/
theorem partitionInit_loaded (h : partitionInit w flashStart flashes residue table = some a) :
    Loaded w flashStart flashes residue table a := by
  unfold partitionInit at h
  split_ifs at h
  obtain ⟨hfits', hnum⟩ := loadFlashes_fits (Nat.zero_add flashes.length).le
    (forall₂_unused fits_unused) (by simp [countP_replicate, Scn.used, Scn.unused]) h
  have hmarked' := loadFlashes_marked (forall₂_unused marked_unused) h
  rw [nil_append] at hmarked'
  refine ⟨?_, ?_, fun he hscn hloaded => ?_, fun he hscn hloaded => ?_⟩
  · simpa [getSysPartition] using hfits'.length_eq.symm
  · rw [hnum, countP_used hmarked', getSysPartition_countP]
  · have hused := (forall₂_getElem? hmarked' (getSysPartition_getElem? he) hscn).1
    exact forall₂_getElem? hfits' (getSysPartition_getElem? he) hscn
      (bne_iff_ne.mp (hused.trans hloaded))
  · have hmark := forall₂_getElem? hmarked' (getSysPartition_getElem? he) hscn
    exact hmark.2 (hmark.1.trans hloaded)

/-- `partition_close`. -/
def partitionClose (a : PartArray) (partition : ℤ) : PartArray :=
  match partitionInfoGet a partition with
  | some _ =>
    { a with scnList := a.scnList.modify partition.toNat fun scn => { scn with flashDev := none } }
  | none => a

/-- A call after `partition_init`. -/
inductive PartCall where
  /-- `partition_open`. -/
  | opens (name : List UInt8)
  /-- `partition_close`. -/
  | closes (partition : ℤ)

/-- The array after a call. -/
def PartArray.after (flashNum : ℕ) (a : PartArray) : PartCall → PartArray
  | .opens name => (partitionOpen flashNum a name).2
  | .closes partition => partitionClose a partition

section

variable (h : Loaded w flashStart flashes residue table a)
include h

/-- The device of a record does not matter. -/
theorem Loaded.modify (k : ℕ) (dev : Scn → Option ℕ) :
    Loaded w flashStart flashes residue table
      { a with scnList := a.scnList.modify k fun scn => { scn with flashDev := dev scn } } := by
  have hrecord : ∀ {i : ℕ} {scn : Scn},
      (a.scnList.modify k fun scn => { scn with flashDev := dev scn })[i]? = some scn →
      ∃ old d, a.scnList[i]? = some old ∧ scn = { old with flashDev := d } := by
    intro i scn hscn
    rw [getElem?_modify] at hscn
    obtain ⟨old, hold, rfl⟩ := Option.map_eq_some_iff.mp hscn
    split_ifs
    · exact ⟨old, dev old, hold, rfl⟩
    · exact ⟨old, old.flashDev, hold, rfl⟩
  refine ⟨(length_modify ..).trans h.length, h.num, fun he hscn hloaded => ?_,
    fun he hscn hloaded => ?_⟩
  · obtain ⟨old, d, hold, rfl⟩ := hrecord hscn
    have hfilled := h.filled he hold hloaded
    exact hfilled
  · obtain ⟨old, d, hold, rfl⟩ := hrecord hscn
    have hempty := h.empty he hold hloaded
    exact hempty

theorem Loaded.after (call : PartCall) :
    Loaded w flashStart flashes residue table (a.after flashes.length call) := by
  cases call with
  | opens name =>
    show Loaded w flashStart flashes residue table (partitionOpen flashes.length a name).2
    unfold partitionOpen
    split
    · exact h.modify _ _
    · exact h
  | closes partition =>
    show Loaded w flashStart flashes residue table (partitionClose a partition)
    unfold partitionClose
    split
    · exact h.modify _ _
    · exact h

theorem Loaded.foldl (calls : List PartCall) :
    Loaded w flashStart flashes residue table (calls.foldl (PartArray.after flashes.length) a) := by
  induction calls generalizing a with
  | nil => exact h
  | cons call calls ih => exact ih (h.after call)

end

end Calls

section Open

variable {w flashStart : ℕ} {flashes : List FlashInfo} {residue : ℕ → List UInt8}
variable {table : List ImtbEntry} {a : PartArray}

/-- Opening the name of an entry gives a handle with the region of the entry. -/
def OpensEntry (flashStart flashNum : ℕ) (a : PartArray) (e : ImtbEntry) : Prop :=
  ∃ scn, partitionInfoGet (partitionOpen flashNum a e.label).2
      (partitionOpen flashNum a e.label).1 = some scn ∧
    scn.baseAddr+scn.startAddr = (sysPartition flashStart [] e).partAddr ∧
    scn.length = (sysPartition flashStart [] e).partSize

/-- The name of an entry, cut to the field, starts with that of another. -/
def ImtbEntry.StartsWith (other e : ImtbEntry) : Prop :=
  e.label <+: other.label.take (mtbImageNameSize-1)

/-- The first entry on a flash whose name starts with that of the entry has a place below the
number of entries on a flash, and the region of the entry. It is the entry itself unless two
names or regions agree. -/
def Reachable (w flashStart : ℕ) (flashes : List FlashInfo) (table : List ImtbEntry)
    (e : ImtbEntry) : Prop :=
  ∃ (i : ℕ) (first : ImtbEntry), table[i]? = some first ∧
    i < table.countP (ImtbEntry.loaded w flashStart flashes) ∧
    first.loaded w flashStart flashes = true ∧ first.StartsWith e ∧
    (∀ (j : ℕ) (other : ImtbEntry), j < i → table[j]? = some other →
      other.loaded w flashStart flashes = true → ¬other.StartsWith e) ∧
    (sysPartition flashStart [] first).partAddr = (sysPartition flashStart [] e).partAddr ∧
    (sysPartition flashStart [] first).partSize = (sysPartition flashStart [] e).partSize

theorem zero_not_mem_label (e : ImtbEntry) : 0 ∉ e.label := fun hmem => by
  have hne := mem_takeWhile_imp hmem
  simp at hne

variable {scn : Scn} {e : ImtbEntry} {i : ℕ}

/-- An unused record has no name. -/
theorem not_named_of_empty {s : List UInt8} (hs : 0 ∉ s) (hne : s ≠ [])
    (hscn : scn.description = Scn.unused.description) : scn.named s = false := by
  cases s with
  | nil => exact absurd rfl hne
  | cons c rest =>
    have hc : c ≠ 0 := fun heq => hs (heq ▸ mem_cons_self)
    rw [Bool.eq_false_iff]
    intro hnamed
    rw [Scn.named, hscn, beq_iff_eq] at hnamed
    have hhead := congrArg List.head? hnamed
    have hzero : ((List.replicate 8 (0 : UInt8)).take (min (rest.length+1) 8)).head? = some 0 := by
      rw [head?_take, if_neg (by omega)]
      rfl
    exact hc (Option.some.inj (hhead.trans hzero))

section

variable (h : Loaded w flashStart flashes residue table a)
include h

/-- The records that a name finds. -/
theorem Loaded.named_iff {other : ImtbEntry} (hname : e.label ≠ [])
    (hother : table[i]? = some other) (hscn : a.scnList[i]? = some scn) :
    scn.named e.label = true ↔ other.loaded w flashStart flashes = true ∧ other.StartsWith e := by
  cases hloaded : other.loaded w flashStart flashes with
  | false =>
    rw [not_named_of_empty (zero_not_mem_label e) hname (h.empty hother hscn hloaded)]
    simp
  | true =>
    rw [Mtb.named_iff (h.filled hother hscn hloaded).1 (zero_not_mem_label e), and_iff_right rfl]
    rfl

/-- The record of an entry. -/
theorem Loaded.record (he : table[i]? = some e) : ∃ scn, a.scnList[i]? = some scn := by
  have hlt := (List.getElem?_eq_some_iff.mp he).1
  rw [← h.length] at hlt
  exact ⟨_, getElem?_eq_getElem hlt⟩

/-- The entry of a record that is looked at. -/
theorem Loaded.entry (hget : (a.scnList.take a.num)[i]? = some scn) :
    i < a.num ∧ a.scnList[i]? = some scn ∧ ∃ e, table[i]? = some e := by
  have hlt := (List.getElem?_eq_some_iff.mp hget).1
  rw [length_take, h.length] at hlt
  have hnum : i < a.num := by omega
  rw [getElem?_take_of_lt hnum] at hget
  exact ⟨hnum, hget, _, getElem?_eq_getElem (by omega)⟩

end

/-- After `partition_init`, and after any calls that open and close partitions, opening the name
of an entry gives its region if and only if the entry can be reached. -/
theorem partitionOpen_entry_iff
    (hinit : partitionInit w flashStart flashes residue table = some a) (calls : List PartCall)
    {e : ImtbEntry} (hname : e.label ≠ []) :
    OpensEntry flashStart flashes.length (calls.foldl (PartArray.after flashes.length) a) e ↔
      Reachable w flashStart flashes table e := by
  have h := (partitionInit_loaded hinit).foldl calls
  generalize calls.foldl (PartArray.after flashes.length) a = b at h ⊢
  constructor
  · rintro ⟨scn, hinfo, haddr, hlength⟩
    rcases partitionOpen_cases flashes.length b e.label with
      ⟨i, found, hopen, hget, hnamed, hfirst⟩ | ⟨hopen, -⟩
    · obtain ⟨hlt, hscn, first, htable⟩ := h.entry hget
      obtain ⟨hloaded, hstarts⟩ := (h.named_iff hname htable hscn).mp hnamed
      obtain ⟨-, hbase, hsize, hidx⟩ := h.filled htable hscn hloaded
      rw [hopen, partitionInfoGet_opened hopen hlt hscn hidx] at hinfo
      cases hinfo
      refine ⟨i, first, htable, h.num ▸ hlt, hloaded, hstarts, ?_, hbase.symm.trans haddr,
        hsize.symm.trans hlength⟩
      intro j other hj hother hload hstart
      obtain ⟨before, hbefore⟩ := h.record hother
      have hno := hfirst j before hj (by rw [getElem?_take_of_lt (by omega), hbefore])
      have hyes := (h.named_iff hname hother hbefore).mpr ⟨hload, hstart⟩
      exact Bool.false_ne_true (hno.symm.trans hyes)
    · rw [hopen, partitionInfoGet, if_neg fun hle => Partitions.not_einval_nonneg hle.1] at hinfo
      cases hinfo
  · rintro ⟨i, first, htable, hlt, hloaded, hstarts, hearlier, haddr, hlength⟩
    obtain ⟨scn, hscn⟩ := h.record htable
    obtain ⟨-, hbase, hsize, hidx⟩ := h.filled htable hscn hloaded
    rw [← h.num] at hlt
    have hlooked : (b.scnList.take b.num)[i]? = some scn := by
      rw [getElem?_take_of_lt hlt, hscn]
    have hyes := (h.named_iff hname htable hscn).mpr ⟨hloaded, hstarts⟩
    have hopen : (partitionOpen flashes.length b e.label).1 = i := by
      rcases partitionOpen_cases flashes.length b e.label with
        ⟨k, found, hopen, hget, hnamed, hfirst⟩ | ⟨-, hnone⟩
      · obtain ⟨-, hfound, other, hother⟩ := h.entry hget
        obtain ⟨hload, hstart⟩ := (h.named_iff hname hother hfound).mp hnamed
        have hge : ¬k < i := fun hki => hearlier k other hki hother hload hstart
        have hle : ¬i < k := fun hik =>
          Bool.false_ne_true ((hfirst i scn hik hlooked).symm.trans hyes)
        rw [hopen, show k = i by omega]
      · have hno := hnone scn (mem_of_getElem? hlooked)
        exact absurd (hno.symm.trans hyes) Bool.false_ne_true
    refine ⟨scn.openDev flashes.length, ?_, hbase.trans haddr, hsize.trans hlength⟩
    rw [hopen]
    exact partitionInfoGet_opened hopen hlt hscn hidx

end Open

section Samples

/-- Two partitions, the first behind the end of the flash. -/
def outsideEntries : List ImtbEntry := [⟨kv2, [], 8, 16⟩, ⟨kv, [], 8, 8⟩]

/-- The records of `outsideEntries`. -/
def outsideScns : PartArray := ⟨[Scn.unused, ⟨kv, 0, 4096, 4096, 4096, 0, none⟩], 1⟩

theorem partitionOpen_entry_sample :
    partitionInit 32 0 sampleFlashes (fun _ => List.replicate 8 0) twoEntries = some twoScns ∧
      OpensEntry 0 1 twoScns ⟨kv2, [], 8, 0⟩ :=
  ⟨rfl, (partitionOpen_entry_iff partitionInit_twoEntries [] (by decide)).mpr
    ⟨0, ⟨kv2, [], 8, 0⟩, rfl, by decide, by decide, ⟨[], rfl⟩, nofun, rfl, rfl⟩⟩

/-- Behind an entry that lies on no flash, an entry that does is not found. -/
theorem partitionOpen_entry_lost :
    partitionInit 32 0 sampleFlashes (fun _ => List.replicate 8 0) outsideEntries =
        some outsideScns ∧
      outsideEntries.map (ImtbEntry.loaded 32 0 sampleFlashes) = [false, true] ∧
      (partitionOpen 1 outsideScns [107, 118]).1 = Partitions.einval ∧
      ¬OpensEntry 0 1 outsideScns ⟨kv, [], 8, 8⟩ := by
  refine ⟨rfl, by decide, by decide, ?_⟩
  rintro ⟨scn, hinfo, -⟩
  have hnone : partitionInfoGet (partitionOpen 1 outsideScns [107, 118]).2
      (partitionOpen 1 outsideScns [107, 118]).1 = none := by decide
  exact absurd (hinfo.symm.trans hnone) nofun

end Samples

end PineVoice.Mtb
