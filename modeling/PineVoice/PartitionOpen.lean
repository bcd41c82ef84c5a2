import Mathlib.Data.List.TakeWhile
import PineVoice.Mtb

/-!
# Loading the partition table and opening a partition

`get_sys_partition` copies the names of the table, cut to seven characters, into a buffer that
keeps its old bytes behind the terminator. `partition_init` fills a record for each entry that
lies on a flash, and `partition_open` finds the first whose name starts with the text asked for.
An `unsigned long` has `w` bits.
-/

namespace PineVoice.Mtb

open List

/-- The name of an entry as a text. -/
def ImtbEntry.label (e : ImtbEntry) : List UInt8 := text mtbImageNameSize e.name

/-- `sys_partition_info_t`. -/
structure SysPartition where
  /-- `image_name`. -/
  imageName : List UInt8
  /-- `part_addr`. -/
  partAddr : ℕ
  /-- `part_size`. -/
  partSize : ℕ

/-- An entry of the buffer that `get_sys_partition` fills, from the bytes before. -/
def sysPartition (flashStart : ℕ) (residue : List UInt8) (e : ImtbEntry) : SysPartition :=
  let info := e.info flashStart
  let len := min (text mtbImageNameSize info.name).length (mtbImageNameSize-1)
  { imageName := info.name.take len ++ 0 :: residue.drop (len+1)
    partAddr := info.startAddr
    partSize := (info.endAddr+2^32-info.startAddr) % 2^32 }

/-- `get_sys_partition`. -/
def getSysPartition (flashStart : ℕ) (residue : ℕ → List UInt8) (table : List ImtbEntry) :
    List SysPartition :=
  table.zipIdx.map fun x => sysPartition flashStart (residue x.2) x.1

/-- `partition_flash_info_t`; a flash that does not answer has no sectors. -/
structure FlashInfo where
  /-- `start_addr`. -/
  startAddr : ℕ
  /-- `sector_size`. -/
  sectorSize : ℕ
  /-- `sector_count`. -/
  sectorCount : ℕ

/-- `partition_info_t`. -/
structure Scn where
  /-- `description`. -/
  description : List UInt8
  /-- `base_addr`. -/
  baseAddr : ℕ
  /-- `start_addr`. -/
  startAddr : ℕ
  /-- `length`. -/
  length : ℕ
  /-- `sector_size`. -/
  sectorSize : ℕ
  /-- `idx`. -/
  idx : ℕ
  /-- `flash_dev`. -/
  flashDev : Option ℕ
deriving DecidableEq

/-- A record of the zeroed array. -/
def Scn.unused : Scn := ⟨List.replicate mtbImageNameSize 0, 0, 0, 0, 0, 0, none⟩

/-- `g_partion_array`. -/
structure PartArray where
  /-- `scn_list`. -/
  scnList : List Scn
  /-- `num`. -/
  num : ℕ

/-- `CONFIG_MAX_PARTITION_NUM`. -/
def maxPartitionNum : ℕ := 16

/-- The record of an entry on a flash. -/
def Scn.fill (flash : FlashInfo) (idx : ℕ) (p : SysPartition) (scn : Scn) : Scn :=
  { scn with
    description := p.imageName
    baseAddr := flash.startAddr
    startAddr := p.partAddr-flash.startAddr
    length := p.partSize
    sectorSize := flash.sectorSize
    idx := idx }

section Init

variable (w : ℕ)

/-- Whether an entry lies on a flash. The fields of the entry have 64 bits, the start of the flash
is an `unsigned long`, and its size is a product of 32 bits. -/
def FlashInfo.covers (flash : FlashInfo) (p : SysPartition) : Bool :=
  flash.startAddr ≤ p.partAddr &&
    (p.partAddr+p.partSize) % 2^64 ≤
      (flash.startAddr+flash.sectorSize*flash.sectorCount % 2^32) % 2^w

/-- The body of the loop over the entries, with what it adds to `num`. -/
def loadEntry (flash : FlashInfo) (idx : ℕ) (p : SysPartition) (scn : Scn) : Option (Scn × ℕ) :=
  if flash.covers w p then
    let new := scn.fill flash idx p
    if new.length ≠ 0 ∧ new.sectorSize ≠ 0 ∧ new.description.head? ≠ some 0 then
      some (new, if scn.sectorSize = 0 then 1 else 0)
    else none
  else some (scn, 0)

/-- The loop over the entries. -/
def loadFlash (flash : FlashInfo) (idx : ℕ) :
    List SysPartition → List Scn → Option (List Scn × ℕ)
  | p :: ps, scn :: scns =>
    (loadEntry w flash idx p scn).bind fun x =>
      (loadFlash flash idx ps scns).map fun y => (x.1 :: y.1, x.2+y.2)
  | _, scns => some (scns, 0)

/-- The loop over the flashes. -/
def loadFlashes (ps : List SysPartition) : List FlashInfo → ℕ → PartArray → Option PartArray
  | [], _, a => some a
  | flash :: rest, idx, a =>
    if 0 < flash.sectorCount then
      (loadFlash w flash idx ps a.scnList).bind fun x =>
        loadFlashes ps rest (idx+1) ⟨x.1, a.num+x.2⟩
    else loadFlashes ps rest (idx+1) a

/-- `partition_init` with zeroed records for the entries of the table; it refuses more
entries than there is room for. -/
def partitionInit (flashStart : ℕ) (flashes : List FlashInfo) (residue : ℕ → List UInt8)
    (table : List ImtbEntry) : Option PartArray :=
  if maxPartitionNum < table.length then none
  else loadFlashes w (getSysPartition flashStart residue table) flashes 0
    ⟨List.replicate table.length Scn.unused, 0⟩

end Init

/-- `partition_flash_open`. -/
def partitionFlashOpen (flashNum id : ℕ) : Option ℕ := if id < flashNum then some id else none

/-- The device of a record that is opened. -/
def Scn.openDev (flashNum : ℕ) (scn : Scn) : Scn :=
  { scn with flashDev := scn.flashDev.or (partitionFlashOpen flashNum scn.idx) }

/-- The `memcmp` of `partition_open`. -/
def Scn.named (name : List UInt8) (scn : Scn) : Bool :=
  name.take mtbImageNameSize == scn.description.take (min name.length mtbImageNameSize)

/-- `partition_open`. -/
def partitionOpen (flashNum : ℕ) (a : PartArray) (name : List UInt8) : ℤ × PartArray :=
  match (a.scnList.take a.num).findIdx? (Scn.named name) with
  | some i => (i, { a with scnList := a.scnList.modify i (Scn.openDev flashNum) })
  | none => (Partitions.einval, a)

/-- `partition_info_get`. -/
def partitionInfoGet (a : PartArray) (partition : ℤ) : Option Scn :=
  if 0 ≤ partition ∧ partition < a.num then
    (a.scnList[partition.toNat]?).filter (·.flashDev.isSome)
  else none

section Load

variable {flashNum : ℕ}

/-- A record of an entry is unused or holds the entry. -/
def Fits (flashNum : ℕ) (p : SysPartition) (scn : Scn) : Prop :=
  scn.sectorSize ≠ 0 → scn.description = p.imageName ∧
    scn.baseAddr+scn.startAddr = p.partAddr ∧ scn.length = p.partSize ∧ scn.idx < flashNum

/-- A record in use. -/
def Scn.used (scn : Scn) : Bool := scn.sectorSize != 0

variable {flash : FlashInfo} {w flashStart i idx : ℕ} {ps : List SysPartition}
  {flashes : List FlashInfo} {residue : ℕ → List UInt8} {table : List ImtbEntry} {e : ImtbEntry}

theorem loadEntry_fits {k : ℕ} {p : SysPartition} {scn scn' : Scn} (hidx : idx < flashNum)
    (hfits : Fits flashNum p scn) (h : loadEntry w flash idx p scn = some (scn', k)) :
    Fits flashNum p scn' ∧ (if scn'.used then 1 else 0) = (if scn.used then 1 else 0)+k := by
  unfold loadEntry at h
  by_cases hcovers : flash.covers w p = true
  · rw [if_pos hcovers] at h
    obtain ⟨hsound, heq⟩ := Option.ite_none_right_eq_some.mp h
    cases heq
    simp only [FlashInfo.covers, Bool.and_eq_true, decide_eq_true_eq] at hcovers
    refine ⟨fun _ => ⟨rfl, ?_, rfl, hidx⟩, ?_⟩
    · show flash.startAddr+(p.partAddr-flash.startAddr) = p.partAddr
      omega
    · have hused : (scn.fill flash idx p).used = true := bne_iff_ne.mpr hsound.2.1
      rw [if_pos hused]
      by_cases hunused : scn.sectorSize = 0 <;> simp [Scn.used, hunused]
  · rw [if_neg hcovers] at h
    cases h
    exact ⟨hfits, rfl⟩

theorem loadFlash_fits (hidx : idx < flashNum) {scns : List Scn}
    (hfits : List.Forall₂ (Fits flashNum) ps scns) :
    ∀ {scns' : List Scn} {k : ℕ}, loadFlash w flash idx ps scns = some (scns', k) →
      List.Forall₂ (Fits flashNum) ps scns' ∧ scns'.countP Scn.used = scns.countP Scn.used+k := by
  induction hfits with
  | nil =>
    intro scns' k h
    cases h
    exact ⟨.nil, rfl⟩
  | @cons p scn ps scns hone _ ih =>
    intro scns' k h
    obtain ⟨⟨new, m⟩, hentry, hrest⟩ := Option.bind_eq_some_iff.mp h
    obtain ⟨⟨rest, n⟩, hload, heq⟩ := Option.map_eq_some_iff.mp hrest
    cases heq
    obtain ⟨hnew, hm⟩ := loadEntry_fits hidx hone hentry
    obtain ⟨hall, hn⟩ := ih hload
    refine ⟨.cons hnew hall, ?_⟩
    rw [countP_cons, countP_cons, hn, hm]
    omega

theorem loadFlashes_fits :
    ∀ {idx : ℕ} {a a' : PartArray}, idx+flashes.length ≤ flashNum →
      List.Forall₂ (Fits flashNum) ps a.scnList → a.num = a.scnList.countP Scn.used →
      loadFlashes w ps flashes idx a = some a' →
      List.Forall₂ (Fits flashNum) ps a'.scnList ∧ a'.num = a'.scnList.countP Scn.used := by
  induction flashes with
  | nil =>
    intro idx a a' _ hfits hnum h
    cases h
    exact ⟨hfits, hnum⟩
  | cons flash rest ih =>
    intro idx a a' hidx hfits hnum h
    rw [length_cons] at hidx
    unfold loadFlashes at h
    split_ifs at h with hcount
    · obtain ⟨⟨scns, k⟩, hload, hrest⟩ := Option.bind_eq_some_iff.mp h
      obtain ⟨hfits', hk⟩ := loadFlash_fits (by omega) hfits hload
      exact ih (by omega) hfits' (by rw [hk, ← hnum]) hrest
    · exact ih (by omega) hfits hnum h

theorem getSysPartition_getElem? (he : table[i]? = some e) :
    (getSysPartition flashStart residue table)[i]? =
      some (sysPartition flashStart (residue i) e) := by
  rw [getSysPartition, getElem?_map, getElem?_zipIdx, he, Nat.zero_add]
  rfl

/-- What holds of every entry and an unused record holds before the loops. -/
theorem forall₂_unused {R : SysPartition → Scn → Prop} (h : ∀ p, R p Scn.unused) :
    List.Forall₂ R (getSysPartition flashStart residue table)
      (List.replicate table.length Scn.unused) := by
  refine List.forall₂_iff_get.mpr ⟨by simp [getSysPartition], fun j hj hj' => ?_⟩
  rw [eq_of_mem_replicate (List.get_mem _ _)]
  exact h _

theorem fits_unused (p : SysPartition) : Fits flashNum p Scn.unused :=
  fun hused => absurd rfl hused

theorem forall₂_getElem? {α β : Type*} {R : α → β → Prop} {l : List α} {m : List β}
    (h : List.Forall₂ R l m) :
    ∀ {i : ℕ} {x : α} {y : β}, l[i]? = some x → m[i]? = some y → R x y := by
  induction h with
  | nil =>
    intro i x y hx
    cases hx
  | cons hone _ ih =>
    intro i x y hx hy
    cases i with
    | zero =>
      cases hx
      cases hy
      exact hone
    | succ i => exact ih hx hy

/-- Once the table is loaded completely, every record holds its entry. -/
theorem partitionInit_holds {a : PartArray}
    (h : partitionInit w flashStart flashes residue table = some a) (hfull : a.num = table.length)
    (he : table[i]? = some e) :
    ∃ scn, a.scnList[i]? = some scn ∧
      scn.description = (sysPartition flashStart (residue i) e).imageName ∧
      scn.baseAddr+scn.startAddr = (e.info flashStart).startAddr ∧
      scn.length = (sysPartition flashStart (residue i) e).partSize ∧ scn.idx < flashes.length := by
  unfold partitionInit at h
  split_ifs at h
  obtain ⟨hfits, hnum⟩ := loadFlashes_fits (Nat.zero_add flashes.length).le
    (forall₂_unused fits_unused) (by simp [countP_replicate, Scn.used, Scn.unused]) h
  have hlen : a.scnList.length = table.length := by
    simpa [getSysPartition] using hfits.length_eq.symm
  have hall : ∀ scn ∈ a.scnList, scn.used = true :=
    List.countP_eq_length.mp (by omega)
  have hlt : i < a.scnList.length := hlen ▸ (List.getElem?_eq_some_iff.mp he).1
  have hscn := getElem?_eq_getElem hlt
  refine ⟨a.scnList[i], hscn, ?_⟩
  exact forall₂_getElem? hfits (getSysPartition_getElem? he) hscn
    (bne_iff_ne.mp (hall _ (getElem_mem hlt)))

end Load

section Names

variable {s : List UInt8}

/-- A text without terminators that starts a terminated text starts what is before the
terminator. -/
theorem isPrefix_of_terminated {n rest : List UInt8} (hs : 0 ∉ s) (h : s <+: n ++ 0 :: rest) :
    s <+: n := by
  rcases prefix_or_prefix_of_prefix h (prefix_append n (0 :: rest)) with hsn | ⟨u, rfl⟩
  · exact hsn
  · have hu : u <+: 0 :: rest := (prefix_append_right_inj n).mp h
    cases u with
    | nil => rw [append_nil]
    | cons x xs =>
      obtain ⟨rfl, -⟩ := List.cons_prefix_cons.mp hu
      exact absurd (mem_append_right n mem_cons_self) hs

theorem text_take (n : ℕ) (bytes : List UInt8) :
    bytes.take (text n bytes).length = text n bytes := by
  have hpre : text n bytes <+: bytes :=
    ( takeWhile_prefix _).trans ( take_prefix n bytes)
  exact (List.prefix_iff_eq_take.mp hpre).symm

theorem text_of_not_mem {n : ℕ} (hs : 0 ∉ s) : text n s = s.take n := by
  refine List.takeWhile_eq_self_iff.mpr fun x hx => ?_
  have hne : x ≠ 0 := fun h => hs (h ▸ mem_of_mem_take hx)
  simpa using hne

/-- A record is found exactly by what its name, cut to the field, starts with. -/
theorem named_iff {flashStart : ℕ} {residue : List UInt8} {e : ImtbEntry} {scn : Scn}
    (hscn : scn.description = (sysPartition flashStart residue e).imageName) (hs : 0 ∉ s) :
    scn.named s = true ↔ s <+: e.label.take (mtbImageNameSize-1) := by
  have himage : scn.description = e.label.take 7 ++ 0 :: residue.drop (min e.label.length 7+1) := by
    rw [hscn]
    show e.name.take (min e.label.length 7) ++ 0 :: residue.drop (min e.label.length 7+1) = _
    rw [Nat.min_comm, ← take_take, ImtbEntry.label, text_take]
  have hfirst : scn.named s = true ↔ s.take 8 <+: scn.description := by
    rw [Scn.named, beq_iff_eq, prefix_iff_eq_take, length_take, Nat.min_comm]
    rfl
  rw [hfirst, himage]
  constructor
  · intro h
    have hpre := isPrefix_of_terminated (fun hmem => hs (mem_of_mem_take hmem)) h
    have hshort := hpre.length_le
    rw [length_take, length_take] at hshort
    rwa [take_of_length_le (by omega)] at hpre
  · intro h
    exact (( take_prefix 8 s).trans h).trans (prefix_append _ _)

end Names

section Open

variable (flashStart flashNum : ℕ) (table : List ImtbEntry) (a : PartArray)

/-- Opening a text opens the partition of that name, or fails when there is none, and
gives the region that the table gives. -/
structure OpensNamed (s : List UInt8) : Prop where
  /-- The handle of the entry of that name. -/
  found : ∀ (i : ℕ) (e : ImtbEntry), table[i]? = some e → e.label = s →
    (partitionOpen flashNum a s).1 = i
  /-- An error without such an entry. -/
  absent : (∀ e ∈ table, e.label ≠ s) → (partitionOpen flashNum a s).1 < 0
  /-- The region of the entry. -/
  region : ∀ info, mtbv4GetPartitionInfo table flashStart s = some info →
    ∃ scn, partitionInfoGet (partitionOpen flashNum a s).2 (partitionOpen flashNum a s).1 =
        some scn ∧
      scn.baseAddr+scn.startAddr = info.startAddr ∧
      (info.startAddr+scn.length) % 2^32 = info.endAddr

/-- The first match, or an error when nothing matches. -/
theorem partitionOpen_cases (s : List UInt8) :
    (∃ i scn, (partitionOpen flashNum a s).1 = (i : ℕ) ∧
      (a.scnList.take a.num)[i]? = some scn ∧ scn.named s = true ∧
      ∀ j scn', j < i → (a.scnList.take a.num)[j]? = some scn' → scn'.named s = false) ∨
    ((partitionOpen flashNum a s).1 = Partitions.einval ∧
      ∀ scn ∈ a.scnList.take a.num, scn.named s = false) := by
  unfold partitionOpen
  cases h : (a.scnList.take a.num).findIdx? (Scn.named s) with
  | none => exact Or.inr ⟨rfl, List.findIdx?_eq_none_iff.mp h⟩
  | some i =>
    obtain ⟨hi, hmatch, hfirst⟩ := List.findIdx?_eq_some_iff_getElem.mp h
    refine Or.inl ⟨i, _, rfl, getElem?_eq_getElem hi, hmatch, fun j scn' hj hget => ?_⟩
    obtain ⟨hj', rfl⟩ := List.getElem?_eq_some_iff.mp hget
    exact Bool.eq_false_iff.mpr (hfirst j hj)

variable {flashNum a}

/-- The record of a handle that was opened. -/
theorem partitionInfoGet_opened {s : List UInt8} {i : ℕ} {scn : Scn}
    (hopen : (partitionOpen flashNum a s).1 = i) (hlt : i < a.num)
    (hget : a.scnList[i]? = some scn) (hidx : scn.idx < flashNum) :
    partitionInfoGet (partitionOpen flashNum a s).2 i = some (scn.openDev flashNum) := by
  have hstate : (partitionOpen flashNum a s).2 =
      { a with scnList := a.scnList.modify i (Scn.openDev flashNum) } := by
    unfold partitionOpen at hopen ⊢
    cases hfind : (a.scnList.take a.num).findIdx? (Scn.named s) with
    | none =>
      rw [hfind] at hopen
      have herr : Partitions.einval = i := hopen
      exact absurd (herr ▸ Int.natCast_nonneg i) Partitions.not_einval_nonneg
    | some k =>
      rw [hfind] at hopen
      rw [Int.natCast_inj.mp hopen]
  have hdev : (scn.openDev flashNum).flashDev.isSome = true := by
    simp [Scn.openDev, partitionFlashOpen, hidx]
  rw [hstate, partitionInfoGet, if_pos ⟨Int.natCast_nonneg i, Int.ofNat_lt.mpr hlt⟩,
    Int.toNat_natCast, getElem?_modify_eq, hget]
  exact Option.filter_some_pos hdev

end Open

section Named

variable {w flashStart : ℕ} {flashes : List FlashInfo} {residue : ℕ → List UInt8}
variable {table : List ImtbEntry} {a : PartArray}

variable {s : List UInt8} {i : ℕ} {e : ImtbEntry}

/-- Opening finds the first entry whose name starts with the text. -/
theorem partitionOpen_first (hinit : partitionInit w flashStart flashes residue table = some a)
    (hfull : a.num = table.length) (hshort : ∀ e ∈ table, e.label.length < mtbImageNameSize)
    (hs : 0 ∉ s) :
    (∃ (i : ℕ) (e : ImtbEntry), (partitionOpen flashes.length a s).1 = i ∧
      table[i]? = some e ∧ s <+: e.label ∧
      ∀ (j : ℕ) (e' : ImtbEntry), j < i → table[j]? = some e' → ¬s <+: e'.label) ∨
    ((partitionOpen flashes.length a s).1 = Partitions.einval ∧ ∀ e ∈ table, ¬s <+: e.label) := by
  have hrecord : ∀ (i : ℕ) (e : ImtbEntry), table[i]? = some e →
      ∃ scn, (a.scnList.take a.num)[i]? = some scn ∧ (scn.named s = true ↔ s <+: e.label) := by
    intro i e he
    obtain ⟨scn, hget, hname, -⟩ := partitionInit_holds hinit hfull he
    have hlt : i < a.num := hfull ▸ (List.getElem?_eq_some_iff.mp he).1
    have hcut : e.label.take (mtbImageNameSize-1) = e.label :=
      take_of_length_le (Nat.le_of_lt_succ (hshort e (mem_of_getElem? he)))
    refine ⟨scn, by rw [getElem?_take_of_lt hlt, hget], ?_⟩
    rw [named_iff hname hs, hcut]
  rcases partitionOpen_cases flashes.length a s with
    ⟨i, scn, hopen, hget, hmatch, hfirst⟩ | ⟨hopen, hnone⟩
  · have hlt : i < table.length := by
      have hi := (List.getElem?_eq_some_iff.mp hget).1
      rw [length_take] at hi
      omega
    obtain ⟨scn', hget', hiff⟩ := hrecord i _ (getElem?_eq_getElem hlt)
    obtain rfl : scn = scn' := Option.some.inj (hget.symm.trans hget')
    refine Or.inl ⟨i, _, hopen, getElem?_eq_getElem hlt, hiff.mp hmatch, ?_⟩
    intro j e' hj he' hpre
    obtain ⟨scn', hget', hiff'⟩ := hrecord j e' he'
    rw [hfirst j scn' hj hget'] at hiff'
    exact absurd (hiff'.mpr hpre) Bool.false_ne_true
  · refine Or.inr ⟨hopen, fun e he hpre => ?_⟩
    obtain ⟨i, hi⟩ := List.mem_iff_getElem?.mp he
    obtain ⟨scn, hget, hiff⟩ := hrecord i e hi
    rw [hnone scn (mem_of_getElem? hget)] at hiff
    exact absurd (hiff.mpr hpre) Bool.false_ne_true

/-- The record of a handle that was opened, by what the table holds. -/
theorem partitionInfoGet_open (hinit : partitionInit w flashStart flashes residue table = some a)
    (hfull : a.num = table.length) (he : table[i]? = some e)
    (hopen : (partitionOpen flashes.length a s).1 = i) :
    ∃ scn, partitionInfoGet (partitionOpen flashes.length a s).2 i = some scn ∧
      scn.baseAddr+scn.startAddr = (e.info flashStart).startAddr ∧
      ((e.info flashStart).startAddr+scn.length) % 2^32 = (e.info flashStart).endAddr := by
  obtain ⟨scn, hget, -, haddr, hlength, hidx⟩ := partitionInit_holds hinit hfull he
  have hlt : i < a.num := hfull ▸ (List.getElem?_eq_some_iff.mp he).1
  refine ⟨scn.openDev flashes.length, partitionInfoGet_opened hopen hlt hget hidx, haddr, ?_⟩
  show ((e.info flashStart).startAddr+scn.length) % 2^32 = _
  have hend : (e.info flashStart).endAddr < 2^32 := Nat.mod_lt _ (by decide)
  have hstart : (e.info flashStart).startAddr < 2^32 := Nat.mod_lt _ (by decide)
  have hlen : scn.length =
      ((e.info flashStart).endAddr+2^32-(e.info flashStart).startAddr) % 2^32 := hlength
  omega

/-- Entries of one name are one entry. -/
theorem index_eq_of_label (hdistinct : (table.map ImtbEntry.label).Nodup) {j : ℕ} {e' : ImtbEntry}
    (he : table[i]? = some e) (he' : table[j]? = some e') (h : e.label = e'.label) : i = j := by
  have hi : (table.map ImtbEntry.label)[i]? = some e.label := by rw [getElem?_map, he]; rfl
  have hj : (table.map ImtbEntry.label)[j]? = some e.label := by
    rw [getElem?_map, he', h]; rfl
  exact (getElem?_inj (List.getElem?_eq_some_iff.mp hi).1 hdistinct).mp (hi.trans hj.symm)

/-- In a table of distinct short names that is loaded completely, a text opens the
partition of its name exactly if every entry whose name is longer and starts with the text
comes behind the entry of that name. -/
theorem partitionOpen_named_iff
    (hinit : partitionInit w flashStart flashes residue table = some a)
    (hfull : a.num = table.length) (hdistinct : (table.map ImtbEntry.label).Nodup)
    (hshort : ∀ e ∈ table, e.label.length < mtbImageNameSize) {s : List UInt8} (hs : 0 ∉ s) :
    OpensNamed flashStart flashes.length table a s ↔
      ∀ (i : ℕ) (e : ImtbEntry), table[i]? = some e → s <+: e.label → s ≠ e.label →
        ∃ j < i, ∃ e', table[j]? = some e' ∧ e'.label = s := by
  have hopen := partitionOpen_first hinit hfull hshort hs
  constructor
  · intro h i e he hpre hne
    rcases hopen with ⟨k, ek, hk, hek, hkpre, hkfirst⟩ | ⟨-, hnone⟩
    · by_cases hnamed : ∃ e' ∈ table, e'.label = s
      · obtain ⟨e', he', hlabel⟩ := hnamed
        obtain ⟨j, hj⟩ := List.mem_iff_getElem?.mp he'
        have hkj : k = j := Int.natCast_inj.mp (hk.symm.trans (h.found j e' hj hlabel))
        refine ⟨j, ?_, e', hj, hlabel⟩
        have hji : j ≠ i := by
          rintro rfl
          exact hne (hlabel.symm.trans (congrArg _ (Option.some.inj (hj.symm.trans he))))
        have hle : ¬i < k := fun hlt => hkfirst i e hlt he hpre
        omega
      · have hneg := h.absent fun e' he' hlabel => hnamed ⟨e', he', hlabel⟩
        rw [hk] at hneg
        exact absurd (Int.natCast_nonneg k) (not_le.mpr hneg)
    · exact absurd hpre (hnone e (mem_of_getElem? he))
  · intro hcond
    have hfound : ∀ (i : ℕ) (e : ImtbEntry), table[i]? = some e → e.label = s →
        (partitionOpen flashes.length a s).1 = i := by
      intro i e he hlabel
      rcases hopen with ⟨k, ek, hk, hek, hkpre, hkfirst⟩ | ⟨-, hnone⟩
      · by_cases heq : s = ek.label
        · rw [hk, index_eq_of_label hdistinct hek he (heq.symm.trans hlabel.symm)]
        · obtain ⟨j, hj, e', he', hlabel'⟩ := hcond k ek hek hkpre heq
          exact absurd (hlabel' ▸ prefix_rfl) (hkfirst j e' hj he')
      · exact absurd (hlabel ▸ prefix_rfl) (hnone e (mem_of_getElem? he))
    refine ⟨hfound, fun habsent => ?_, fun info hinfo => ?_⟩
    · rcases hopen with ⟨k, ek, -, hek, hkpre, -⟩ | ⟨herr, -⟩
      · obtain ⟨j, -, e', he', hlabel'⟩ := hcond k ek hek hkpre
          fun heq => habsent ek (mem_of_getElem? hek) heq.symm
        exact absurd hlabel' (habsent e' (mem_of_getElem? he'))
      · rw [herr]
        decide
    · obtain ⟨e, hfind, rfl⟩ := Option.map_eq_some_iff.mp hinfo
      have hmem := mem_of_find?_eq_some hfind
      have hlabel : e.label = s := by
        have heq : e.label = text mtbImageNameSize s := by
          simpa [ImtbEntry.label] using find?_some hfind
        have hlt := hshort e hmem
        rw [heq, text_of_not_mem hs, length_take] at hlt
        rw [heq, text_of_not_mem hs, take_of_length_le (by omega)]
      obtain ⟨i, hi⟩ := List.mem_iff_getElem?.mp hmem
      have hhandle := hfound i e hi hlabel
      rw [hhandle]
      exact partitionInfoGet_open hinit hfull hi hhandle

end Named

section Samples

/-- A flash of two sectors. -/
def sampleFlashes : List FlashInfo := [⟨0, 4096, 2⟩]

/-- The name field of "kv2". -/
def kv2 : List UInt8 := [107, 118, 50, 0, 0, 0, 0, 0]

/-- The name field of "kv". -/
def kv : List UInt8 := [107, 118, 0, 0, 0, 0, 0, 0]

/-- Two partitions, the name of one starting with that of the other. -/
def twoEntries : List ImtbEntry := [⟨kv2, [], 8, 0⟩, ⟨kv, [], 8, 8⟩]

/-- The records of `twoEntries`. -/
def twoScns : PartArray :=
  ⟨[⟨kv2, 0, 0, 4096, 4096, 0, none⟩, ⟨kv, 0, 4096, 4096, 4096, 0, none⟩], 2⟩

theorem partitionInit_twoEntries :
    partitionInit 32 0 sampleFlashes (fun _ => List.replicate 8 0) twoEntries = some twoScns := rfl

theorem partitionOpen_named_sample :
    OpensNamed 0 1 twoEntries twoScns [107, 118, 50] :=
  (partitionOpen_named_iff partitionInit_twoEntries rfl (by decide) (by decide)
    (by decide)).mpr fun i e he hpre hne => by
      match i, he with
      | 0, he =>
        cases he
        exact absurd rfl hne
      | 1, he =>
        cases he
        exact absurd hpre (by decide)

/-- The text "kv" opens the partition "kv2", which comes before the partition "kv". -/
theorem partitionOpen_other :
    partitionInit 32 0 sampleFlashes (fun _ => List.replicate 8 0) twoEntries = some twoScns ∧
    (twoEntries.map ImtbEntry.label) = [[107, 118, 50], [107, 118]] ∧
    (partitionOpen 1 twoScns [107, 118]).1 = 0 ∧
    ¬OpensNamed 0 1 twoEntries twoScns [107, 118] := by
  refine ⟨rfl, by decide, by decide, fun h => ?_⟩
  have hone := h.found 1 _ rfl (by decide)
  exact absurd hone (by decide)

end Samples

end PineVoice.Mtb
