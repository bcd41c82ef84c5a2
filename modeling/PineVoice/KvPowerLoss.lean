import PineVoice.KvConsistency

/-!
# Power loss

A power cut stops the flash traffic of a call after some operations, and may stop a program
operation after any prefix of its bytes. A torn record has to escape the scanner; then every cut
leaves an image of logs met on the way, and the next start holds the contents from before the call
or those after it.
-/

namespace PineVoice.Kv

open Function NorFlash List

/-- No torn prefix of the record of a key and a value is taken for a record,
wherever in a block it was started and with whatever version. -/
def TornQuiet (size : ℕ) (key value : List UInt8) : Prop :=
  ∀ (version : UInt8) (off b : ℕ) (m : Mem), version ≠ 0 → off % 4 = 0 → Blank m off size →
    off+recSize key value+4 ≤ size → b ≤ key.length+value.length+5 →
    TailQuiet size (program m off ((recordBuffer key value version).take b)) off

section Torn

variable {key value : List UInt8} {m : Mem} {off size : ℕ}

/-- A record up to its closing size byte. -/
def recordCore (key value : List UInt8) (version : UInt8) : List UInt8 :=
  key ++ ([0, sizeLo value.length, sizeHi key.length value.length, version, 0x3D] ++
    (value ++ [sizeHi key.length value.length]))

theorem recordCore_length (key value : List UInt8) (version : UInt8) :
    (recordCore key value version).length = key.length+value.length+6 := by
  simp only [recordCore, length_append, length_cons, length_nil]
  omega

theorem recordBuffer_eq (key value : List UInt8) (version : UInt8) :
    recordBuffer key value version = recordCore key value version ++
      List.replicate (align4 (key.length+value.length+6)-(key.length+value.length+6)) 0 := by
  simp only [recordBuffer, recordCore, append_assoc]

/-- The record found where the closing size byte was written but not all of
the padding. -/
def Rec.padded (hst : Storable key value) (version : UInt8) (m : Mem) (off : ℕ) : Rec :=
  { Rec.fresh hst version with
    pad := readBytes m (off+(key.length+value.length+6))
      (align4 (key.length+value.length+6)-(key.length+value.length+6))
    pad_length := readBytes_length _ _ _ }

theorem Rec.padded_copy (hst : Storable key value) (version : UInt8) (m : Mem) (off : ℕ)
    (k : List UInt8) :
    (Rec.padded hst version m off).copy k = (Rec.fresh hst version).copy k := rfl

/-- Such a record is complete. -/
theorem holds_padded (hst : Storable key value) (version : UInt8) (hb : Blank m off size)
    (hs : off+recSize key value ≤ size) {b : ℕ} (hlen : key.length+value.length+6 ≤ b) :
    Holds (program m off ((recordBuffer key value version).take b)) off
      (Rec.padded hst version
        (program m off ((recordBuffer key value version).take b)) off).bytes := by
  have ha := align4_spec (key.length+value.length+6)
  have hcore := recordCore_length key value version
  rw [recSize] at hs
  have htake : (recordBuffer key value version).take b = recordCore key value version ++
      (List.replicate (align4 (key.length+value.length+6)-(key.length+value.length+6)) 0).take
        (b-(key.length+value.length+6)) := by
    rw [recordBuffer_eq, take_append, hcore, take_of_length_le (by omega)]
  have hle : ((recordBuffer key value version).take b).length ≤
      align4 (key.length+value.length+6) := by
    rw [htake, length_append, length_take, length_replicate]
    omega
  have hprog : Holds (program m off ((recordBuffer key value version).take b)) off
      ((recordBuffer key value version).take b) :=
    holds_program (hb.mono le_rfl (by omega))
  generalize hm : program m off ((recordBuffer key value version).take b) = m' at *
  have hbytes : (Rec.padded hst version m' off).bytes = recordCore key value version ++
      (readBytes m' (off+(key.length+value.length+6))
        (align4 (key.length+value.length+6)-(key.length+value.length+6)) ++
        [0xFF, 0xFF, 0xFF, 0xFF]) := by
    simp [Rec.bytes, Rec.body, Rec.padded, Rec.fresh, Rec.hi, recordCore]
  rw [htake, holds_append] at hprog
  rw [hbytes, holds_append, holds_append, readBytes_length, hcore]
  refine ⟨hprog.1, holds_readBytes _ _ _, holds_of_getD 0xFF fun i hi => ?_⟩
  have hi4 : i < 4 := hi
  rw [←hm, program_outside (.inr (by omega)), hb _ (by omega) (by omega)]
  interval_cases i <;> rfl

end Torn

/-- Every block of a flash is an image of its log. -/
def FlashImage (size num : ℕ) (flash : Mem) (logs : ℕ → List Rec) : Prop :=
  ∀ i, i < num → BlockImage size (window flash (i*size)) (logs i)

/-- Everything behind the logs is erased. -/
def FlashBlank (size num : ℕ) (flash : Mem) (logs : ℕ → List Rec) : Prop :=
  ∀ i, i < num → Blank (window flash (i*size)) (total (logs i)) size

/-- Logs with the same copies and the same sizes. -/
structure Alike (log log' : List Rec) : Prop where
  /-- They take the same space. -/
  total_eq : total log = total log'
  /-- The live records take the same space. -/
  liveSize_eq : liveSize log = liveSize log'
  /-- They hold the same copies. -/
  copies_eq : ∀ k, logCopies k log = logCopies k log'

section Alike

variable {logs logs' : ℕ → List Rec}

theorem Alike.refl (log : List Rec) : Alike log log := ⟨rfl, rfl, fun _ => rfl⟩

/-- Exchanging one record for a like one. -/
theorem Alike.exchange (r r' : Rec) (hn : r.nodeSize = r'.nodeSize) (hl : r.live = r'.live)
    (hc : ∀ k, r.copy k = r'.copy k) (pre post : List Rec) :
    Alike (pre ++ r :: post) (pre ++ r' :: post) := by
  refine ⟨?_, ?_, fun k => ?_⟩
  · simp only [total_append, total_cons, hn]
  · simp only [liveSize_append, liveSize_cons, hl, hn]
  · simp only [logCopies_append, logCopies_cons, hl, hc]

theorem alike_update {log log' : List Rec} (h : Alike log log') (logs : ℕ → List Rec) (id i : ℕ) :
    Alike (update logs id log i) (update logs id log' i) := by
  by_cases he : i = id
  · subst he
    rw [update_self, update_self]
    exact h
  · rw [update_of_ne he, update_of_ne he]
    exact .refl _

theorem copies_congr (h : ∀ i, Alike (logs i) (logs' i)) (num : ℕ) (k : List UInt8) :
    copies num logs k = copies num logs' k :=
  Finset.sum_congr rfl fun i _ => (h i).copies_eq k

end Alike

section Cut

variable {kv : Kvset} {logs logs' : ℕ → List Rec} {id off : ℕ} {data : List UInt8}
  {log : List Rec}

/-- A write inside one block changes the image of that block only. -/
theorem flashImage_write (h : StoreReady kv logs) (hlen : off+data.length ≤ kv.size)
    (himg : BlockImage kv.size (program (kv.mem id) off data) log) :
    FlashImage kv.size kv.num (program kv.flash (id*kv.size+off) data) (update logs id log) := by
  intro i hi
  by_cases he : i = id
  · subst he
    rw [update_self, window_program]
    exact himg
  · rw [update_of_ne he]
    exact (h.image hi).congr (mem_issue_write_other kv he hlen)

/-- A write inside one block leaves the others erased behind their logs. -/
theorem flashBlank_write (h : StoreReady kv logs) (hlen : off+data.length ≤ kv.size)
    (hblank : Blank (program (kv.mem id) off data) (total log) kv.size) :
    FlashBlank kv.size kv.num (program kv.flash (id*kv.size+off) data) (update logs id log) := by
  intro i hi
  by_cases he : i = id
  · subst he
    rw [update_self, window_program]
    exact hblank
  · rw [update_of_ne he]
    exact (h.clean i hi).blank.congr
      ((mem_issue_write_other kv he hlen).mono (Nat.zero_le _) le_rfl)

variable {key value : List UInt8} {b : ℕ}

/-- A cut before the closing size byte: the logs are as before. -/
theorem cut_append_torn (h : StoreReady kv logs) (hid : id < kv.num) {version : UInt8}
    (hv : version ≠ 0) (hroom : total (logs id)+recSize key value+4 ≤ kv.size)
    (hq : TornQuiet kv.size key value) (hb : b ≤ key.length+value.length+5) :
    FlashImage kv.size kv.num
      (program kv.flash (id*kv.size+total (logs id)) ((recordBuffer key value version).take b))
      logs := by
  have hrep := h.rep id hid
  have hcl := h.clean id hid
  have ha := align4_spec (key.length+value.length+6)
  have hlen : ((recordBuffer key value version).take b).length ≤ b := length_take_le _ _
  have himg : BlockImage kv.size (program (kv.mem id) (total (logs id))
      ((recordBuffer key value version).take b)) (logs id) := by
    rw [recSize] at hroom
    refine ⟨hrep.logAt.congr (agree_program (.inl (by omega))), hrep.room, ?_, ?_⟩
    · exact hq version _ b _ hv (total_mod _) hcl.blank (by rw [recSize]; omega) hb
    · exact (hcl.blank.mono (by omega) le_rfl).congr (agree_program (.inr (by omega)))
  rw [recSize] at hroom
  have hall := flashImage_write h (by omega) himg
  rwa [update_eq_self] at hall

/-- A cut behind the closing size byte: the record is there. -/
theorem cut_append_padded (h : StoreReady kv logs) (hid : id < kv.num) (hst : Storable key value)
    (version : UInt8) (hroom : total (logs id)+recSize key value+4 ≤ kv.size)
    (hb : key.length+value.length+6 ≤ b) :
    ∃ log, Alike log (logs id ++ [Rec.fresh hst version]) ∧ FlashImage kv.size kv.num
        (program kv.flash (id*kv.size+total (logs id)) ((recordBuffer key value version).take b))
        (update logs id log) ∧
      FlashBlank kv.size kv.num
        (program kv.flash (id*kv.size+total (logs id)) ((recordBuffer key value version).take b))
        (update logs id log) := by
  have hrep := h.rep id hid
  have hcl := h.clean id hid
  have hlen : ((recordBuffer key value version).take b).length+4 ≤ recSize key value := by
    have ha := align4_spec (key.length+value.length+6)
    have hle := length_take_le' b (recordBuffer key value version)
    rw [recordBuffer_eq, length_append, recordCore_length, length_replicate] at hle
    rw [recordBuffer_eq, recSize]
    omega
  have hold := holds_padded hst version hcl.blank (by omega) hb
  generalize (recordBuffer key value version).take b = data at *
  generalize hr : Rec.padded hst version (program (kv.mem id) (total (logs id)) data)
    (total (logs id)) = r at *
  have halike : Alike (logs id ++ [r]) (logs id ++ [Rec.fresh hst version]) := by
    refine .exchange r (Rec.fresh hst version) ?_ ?_ (fun k => ?_) _ _
    · rw [←hr]
      rfl
    · rw [←hr]
      rfl
    · rw [←hr, Rec.padded_copy]
  have htot : total (logs id ++ [r]) = total (logs id)+recSize key value := by
    rw [halike.total_eq, total_append]
    rfl
  have hblank : Blank (program (kv.mem id) (total (logs id)) data) (total (logs id ++ [r]))
      kv.size := by
    exact (hcl.blank.mono (by omega) le_rfl).congr (agree_program (.inr (by omega)))
  refine ⟨_, halike, flashImage_write h (by omega) ⟨?_, by omega, tailQuiet_of_blank hblank,
    hblank.mono (by omega) le_rfl⟩, flashBlank_write h (by omega) hblank⟩
  exact hrep.logAt.append hold fun i hi => program_outside (.inl hi)

/-- A cut inside the clearing of a flag word leaves some flag word. -/
theorem cut_kill {pre post : List Rec} {r : Rec} (h : StoreReady kv logs) (hid : id < kv.num)
    (hlog : logs id = pre ++ r :: post) (b : ℕ) :
    ∃ (flag : List UInt8) (hl : flag.length = 4), FlashImage kv.size kv.num
      (program kv.flash (id*kv.size+(total pre+r.nodeSize-4))
        (([0, 0, 0, 0] : List UInt8).take b))
      (update logs id (pre ++ r.withFlag flag hl :: post)) ∧
      FlashBlank kv.size kv.num
        (program kv.flash (id*kv.size+(total pre+r.nodeSize-4))
          (([0, 0, 0, 0] : List UInt8).take b))
        (update logs id (pre ++ r.withFlag flag hl :: post)) := by
  have hrep := h.rep id hid
  have hcl := h.clean id hid
  rw [hlog] at hrep hcl
  have hge := r.nodeSize_ge
  have hroom := hrep.room
  have hlen : (([0, 0, 0, 0] : List UInt8).take b).length ≤ 4 := length_take_le' _ _
  generalize (([0, 0, 0, 0] : List UInt8).take b) = data at *
  generalize hm : program (kv.mem id) (total pre+r.nodeSize-4) data = m' at *
  have hsame : ∀ lo hi, hi ≤ total pre+r.nodeSize-4 ∨ total pre+r.nodeSize ≤ lo →
      Agree m' (kv.mem id) lo hi := fun lo hi hd => by
    rw [←hm]
    exact agree_program (by omega)
  have hend : total pre+r.nodeSize ≤ total (pre ++ r :: post) := by
    rw [total_append, total_cons]
    omega
  have hfl : (readBytes m' (total pre+r.nodeSize-4) 4).length = 4 := readBytes_length _ _ _
  have htot : total (pre ++ r.withFlag _ hfl :: post) = total (pre ++ r :: post) := by
    simp only [total_append]
    rfl
  have hblank : Blank m' (total (pre ++ r.withFlag _ hfl :: post)) kv.size := by
    rw [htot]
    exact hcl.blank.congr (hsame _ _ (.inr hend))
  refine ⟨_, hfl, flashImage_write h (by omega) ?_,
    flashBlank_write h (by omega) (by rw [hm]; exact hblank)⟩
  rw [hm]
  refine ⟨?_, by omega, tailQuiet_of_blank hblank, hblank.mono (by omega) le_rfl⟩
  refine hrep.logAt.rewriteFlag hfl (holds_readBytes _ _ _) fun i _ hi => ?_
  rcases hi with hi|hi
  · exact hsame i (i+1) (.inl hi) i le_rfl (Nat.lt_succ_self i)
  · exact hsame i (i+1) (.inr hi) i le_rfl (Nat.lt_succ_self i)

end Cut

section Run

variable {kv : Kvset} {logs logs' : ℕ → List Rec} {size num : ℕ} {Q : (ℕ → List Rec) → Prop}

/-- Every live record of the logs escapes the scanner when torn. -/
def LogsQuiet (size num : ℕ) (logs : ℕ → List Rec) : Prop :=
  ∀ i, i < num → ∀ r ∈ logs i, r.live = true → TornQuiet size r.key r.value

variable {op : Op} {ops : List Op}

/-- A step seen on the logs is a step of some store with those logs. -/
theorem LogStep.ready (hstep : LogStep kv.size kv.num logs op logs') (h : StoreReady kv logs) :
    ∃ kv', StoreReady kv' logs' ∧ kv'.flash = op.apply kv.flash ∧ kv'.size = kv.size ∧
      kv'.num = kv.num := by
  cases hstep with
  | append hi hst _ hroom =>
    refine ⟨_, h.appendRec hi hst _ hroom, ?_, rfl, rfl⟩
    rw [←(h.clean _ hi).writeOffset]
    rfl
  | kill hi hlog hlive hmore => exact ⟨_, h.killRec hi hlog hlive hmore, rfl, rfl, rfl⟩
  | clear hi => exact ⟨_, h.clearBlock hi, rfl, rfl, rfl⟩

/-- Where the closing size byte is missing, the record is torn. -/
theorem not_untorn_core {key value : List UInt8} (hst : Storable key value) (version : UInt8)
    (addr : ℕ) {b : ℕ} (hpos : b ≠ 0) (hb : b ≤ key.length+value.length+5) :
    ¬(Op.write addr (recordBuffer key value version)).Untorn b := by
  have hcore := recordCore_length key value version
  have hk := hst.key_pos
  have hlt := hst.size_lt
  have hhi := sizeHi_toNat hst.key_le (show value.length < 1024 by omega)
  have hlast : sizeHi key.length value.length ∈ (recordBuffer key value version).drop b := by
    rw [recordBuffer_eq, drop_append_of_le_length (by omega), recordCore,
      ←append_assoc, ←append_assoc, drop_append_of_le_length]
    · exact mem_append_left _ (mem_append_right _ mem_cons_self)
    · simp only [length_append, length_cons]
      omega
  rintro (hz|hz)
  · exact hpos hz
  · rw [hz _ hlast] at hhi
    change 0 = _ at hhi
    omega

/-- A cut inside one operation leaves logs like those from before it or those
after it. -/
theorem LogStep.cut (hstep : LogStep kv.size kv.num logs op logs') (h : StoreReady kv logs) (b : ℕ)
    (hq : ¬op.Untorn b → LogsQuiet kv.size kv.num logs') :
    ∃ l, FlashImage kv.size kv.num (op.cut kv.flash b) l ∧
      ((∀ i, Alike (l i) (logs i)) ∨ ∀ i, Alike (l i) (logs' i)) ∧
      (op.Untorn b → FlashBlank kv.size kv.num (op.cut kv.flash b) l) := by
  have hself : FlashImage kv.size kv.num kv.flash logs ∧ FlashBlank kv.size kv.num kv.flash logs :=
    ⟨fun i hi => h.image hi, fun i hi => (h.clean i hi).blank⟩
  by_cases hz : b = 0
  · subst hz
    rw [Op.cut_zero]
    exact ⟨logs, hself.1, .inl fun i => .refl _, fun _ => hself.2⟩
  cases hstep with
  | @append i hi key value hst version hv hroom =>
    rw [Rec.fresh_body] at hq ⊢
    rcases lt_or_ge (key.length+value.length+5) b with hb|hb
    · obtain ⟨log, halike, himg, hblank⟩ := cut_append_padded h hi hst version hroom hb
      exact ⟨_, himg, .inr fun j => alike_update halike logs i j, fun _ => hblank⟩
    · have htorn := not_untorn_core hst version (i*kv.size+total (logs i)) hz hb
      have hquiet : TornQuiet kv.size key value := by
        refine hq htorn i hi (Rec.fresh hst version) ?_ rfl
        rw [update_self]
        exact mem_append_right _ mem_cons_self
      exact ⟨logs, cut_append_torn h hi hv hroom hquiet hb, .inl fun j => .refl _,
        fun hun => absurd hun htorn⟩
  | @kill i hi pre post r hlog hlive hmore =>
    obtain ⟨flag, hl, himg, hblank⟩ := cut_kill h hi hlog b
    refine ⟨_, himg, ?_, fun _ => hblank⟩
    by_cases hzero : flag = [0, 0, 0, 0]
    · subst hzero
      exact .inr fun j => .refl _
    · refine .inl fun j => ?_
      have hlive' : (r.withFlag flag hl).live = r.live := (decide_eq_true hzero).trans hlive.symm
      have hlike := alike_update
        (Alike.exchange (r.withFlag flag hl) r rfl hlive' (fun _ => rfl) pre post)
        logs i j
      rwa [←hlog, update_eq_self] at hlike
  | clear hi => exact ⟨logs, hself.1, .inl fun i => .refl _, fun _ => hself.2⟩

theorem LogRun.start (h : LogRun size num Q logs ops logs') : Q logs := by
  cases h with
  | nil hq => exact hq
  | cons hq _ _ => exact hq

/-- A cut anywhere in a run leaves logs like some logs on the way. -/
theorem LogRun.cut (hrun : LogRun size num Q logs ops logs') (h : StoreReady kv logs)
    (hsize : kv.size = size) (hnum : kv.num = num) (n b : ℕ)
    (hq : ¬Untorn ops n b → ∀ l, Q l → LogsQuiet size num l) :
    ∃ l l', Q l ∧ (∀ i, i < num → liveCount (l i) = 0 → l i = []) ∧
      FlashImage size num (cutImage kv.flash ops n b) l' ∧ (∀ i, Alike (l' i) (l i)) ∧
      (Untorn ops n b → FlashBlank size num (cutImage kv.flash ops n b) l') := by
  induction hrun generalizing kv n with
  | @nil logs hstart =>
    subst hsize hnum
    exact ⟨logs, logs, hstart, h.used, fun i hi => h.image hi, fun _ => .refl _,
      fun _ i hi => (h.clean i hi).blank⟩
  | @cons logs logs1 logs2 op ops hstart hstep hrest ih =>
    subst hsize hnum
    obtain ⟨kv1, h1, hflash, hs1, hn1⟩ := hstep.ready h
    cases n with
    | zero =>
      obtain ⟨l, himg, hl, hblank⟩ := hstep.cut h b fun ht => hq ht _ hrest.start
      rcases hl with hl|hl
      · exact ⟨logs, l, hstart, h.used, himg, hl, hblank⟩
      · refine ⟨logs1, l, hrest.start, ?_, himg, hl, hblank⟩
        rw [←hn1]
        exact h1.used
    | succ n =>
      rw [cutImage, ←hflash]
      exact ih h1 hs1 hn1 n hq

end Run

section Recover

variable {flash : Mem} {num size : ℕ} {logs : ℕ → List Rec} {before M : Contents}

theorem Sole.card_le {c : Multiset (List UInt8 × UInt8)} {o : Option (List UInt8)}
    (h : Sole c o) : c.card ≤ 1 := by
  cases o with
  | none => rw [show c = 0 from h]; exact Nat.zero_le 1
  | some v =>
    obtain ⟨version, rfl⟩ := h
    exact le_rfl

/-- Without the older record of the key stored twice the contents are
resolved. -/
theorem Outdated.resolved {key old v : List UInt8} {version : UInt8} {p : Place}
    {pre post : List Rec} (h : Outdated num logs key old version p pre post)
    (htwo : copies num logs key = {(old, version), (v, bump version)}) (hv : M key = some v)
    (hsole : ∀ k, k ≠ key → Sole (copies num logs k) (M k)) :
    Resolved num M (update logs p.block (removed pre p.record post)) := by
  intro k
  have hrem := copies_removed h.lt h.log h.live k
  by_cases he : k = key
  · subst he
    have hpair : ({(old, version), (v, bump version)} : Multiset (List UInt8 × UInt8)) =
        {(old, version)}+{(v, bump version)} := rfl
    rw [htwo, hpair, ←h.key, Rec.copy_self, h.value, h.version, h.key, add_comm] at hrem
    rw [add_left_cancel hrem, hv]
    exact ⟨bump version, rfl⟩
  · rw [Rec.copy_of_ne (by rw [h.key]; exact he), add_zero] at hrem
    rw [hrem]
    exact hsole k he

/-- The start on an image that determines the contents holds them. -/
theorem kvInit_recover (geo : Geometry num size) (hid : num ≤ 65535)
    (himg : FlashImage size num flash logs) (hM : Recoverable num before M logs) :
    ∃ kv logs', kvInit flash num size = some kv ∧ kv.num = num ∧ StoreRep kv logs' ∧
      Resolved num M logs' := by
  obtain ⟨k, hnew, hsole⟩ := hM
  rcases hnew with hk|⟨old, v, version, -, hMk, htwo⟩
  · have hres : Resolved num M logs := fun key => by
      by_cases he : key = k
      · rw [he]
        exact hk
      · exact hsole key he
    obtain ⟨kv, hkv, -, hnum, hrep, hres', -⟩ :=
      kvInit_resolved geo (fun _ => False) himg (fun _ hf => hf.elim) hres
    exact ⟨kv, _, hkv, hnum, hrep, hres'⟩
  · obtain ⟨kv, p, pre, post, hkv, -, hnum, hout, hrep, -⟩ :=
      kvInit_duplicate geo hid (fun _ => False) himg (fun _ hf => hf.elim) htwo
        fun key he => (hsole key he).card_le
    refine ⟨kv, _, hkv, hnum, hrep, hout.resolved ?_ hMk fun key he => ?_⟩
    · rw [copies_settled]
      exact htwo
    · rw [copies_settled]
      exact hsole key he

end Recover

/-- Keys are C strings that the scanner passes, and records that are stored
escape it when torn. -/
def Call.Safe (size : ℕ) : Call → Prop
  | .set key value => 0 ∉ key ∧ textQuiet false key = true ∧
      (Storable key value → TornQuiet size key value)
  | .rm key => 0 ∉ key
  | .get key _ => 0 ∉ key
  | .gc => True

theorem Call.Safe.quiet {size : ℕ} {c : Call} (h : c.Safe size) : c.Quiet := by
  cases c with
  | set key value => exact ⟨h.1, h.2.1⟩
  | rm key => exact h
  | get key n => exact h
  | gc => trivial

/-- Everything in the contents escapes the scanner when torn. -/
def ContentsQuiet (size : ℕ) (M : Contents) : Prop :=
  ∀ key value, M key = some value → TornQuiet size key value

section Safe

variable {kv kv' : Kvset} {logs : ℕ → List Rec} {M : Contents} {g size : ℕ}

variable {key value : List UInt8} {num : ℕ}

theorem ContentsQuiet.update (h : ContentsQuiet size M) (hq : TornQuiet size key value)
    : ContentsQuiet size (update M key (some value)) := by
  intro k v hv
  by_cases hk : k = key
  · subst hk
    rw [update_self] at hv
    obtain rfl := Option.some.inj hv
    exact hq
  · rw [update_of_ne hk] at hv
    exact h k v hv

/-- A `kv_set` that succeeds stored a record. -/
theorem kvSet_storable_of_success (h : Holding kv logs M g) (h0 : 0 ∉ key)
    (hq : textQuiet false key = true) {ret : ℤ} (hset : kvSet kv key value = some (ret, kv'))
    (hret : 0 ≤ ret) : Storable key value := by
  by_cases hk : (key.length ≤ 0 ∨ 0x3F < key.length) ∨
      (value.length ≤ 0 ∨ 498 ≤ key.length+value.length)
  · obtain ⟨_, _, _, hkv, -⟩ := kvSet_unstorable h h0 hk
    have hfail := congrArg Prod.fst (Option.some.inj (hset.symm.trans hkv))
    omega
  · exact ⟨by omega, by omega, h0, hq, by omega, by omega⟩

/-- A safe call keeps the contents quiet. -/
theorem ContentsQuiet.call (hM : ContentsQuiet size M) (h : Holding kv logs M g) {c : Call}
    (hc : c.Safe size) {reply : Reply} (hcall : kv.call c = some (reply, kv')) :
    ContentsQuiet size (c.record M reply) := by
  cases c with
  | set key value =>
    obtain ⟨h0, hq, htorn⟩ := hc
    obtain ⟨⟨ret, kv1⟩, hset, he⟩ := Option.map_eq_some_iff.mp hcall
    obtain ⟨rfl, rfl⟩ := Prod.mk.inj he
    rw [Call.record]
    split
    · next hret => exact hM.update (htorn (kvSet_storable_of_success h h0 hq hset hret))
    · exact hM
  | rm key =>
    intro k v hv
    by_cases hk : k = key
    · subst hk
      rw [Call.record] at hv
      exact absurd hv (by simp)
    · rw [Call.record, update_of_ne hk] at hv
      exact hM k v hv
  | get key n => exact hM
  | gc => exact hM

/-- A safe run keeps the contents quiet. -/
theorem ContentsQuiet.run (hM : ContentsQuiet size M) (h : Serving kv logs M g)
    {calls : List Call} (hc : ∀ c ∈ calls, c.Safe size) {replies : List Reply}
    (hrun : runCalls kv calls = some (replies, kv')) :
    ContentsQuiet size (recorded M calls replies) := by
  induction calls generalizing kv logs M g replies with
  | nil =>
    exact hM
  | cons c calls ih =>
    have hsafe := hc c mem_cons_self
    obtain ⟨reply, kv1, logs1, g1, hcall, h1, -, -⟩ := h.call hsafe.quiet
    rw [runCalls, hcall] at hrun
    obtain ⟨⟨rest, kv2⟩, hrest, he⟩ := Option.map_eq_some_iff.mp hrun
    obtain ⟨rfl, rfl⟩ := Prod.mk.inj he
    exact ih (hM.call h.toHolding hsafe hcall) h1
      (fun d hd => hc d (mem_cons_of_mem _ hd)) hrest

/-- A live record of recoverable logs holds a value from before or from the
contents. -/
theorem Recoverable.live {i : ℕ} {before : Contents} (h : Recoverable num before M logs)
    (hi : i < num) {r : Rec} (hr : r ∈ logs i) (hl : r.live = true) :
    before r.key = some r.value ∨ M r.key = some r.value := by
  have hmem : (r.value, r.version) ∈ copies num logs r.key :=
    Multiset.mem_of_le (logCopies_le_copies hi r.key) (mem_logCopies hr hl)
  have hof : Sole (copies num logs r.key) (M r.key) → M r.key = some r.value :=
    fun hs => (hs.eq_of_mem hmem).2
  obtain ⟨k, hnew, hsole⟩ := h
  by_cases hk : r.key = k
  · rw [←hk] at hnew
    rcases hnew with hs|⟨old, v, version, hb, hv, hc⟩
    · exact .inr (hof hs)
    · rw [hc] at hmem
      simp only [Multiset.insert_eq_cons, Multiset.mem_cons, Multiset.mem_singleton,
        Prod.mk.injEq] at hmem
      rcases hmem with ⟨he, -⟩|⟨he, -⟩
      · exact .inl (by rw [hb, he])
      · exact .inr (by rw [hv, he])
  · exact .inr (hof (hsole _ hk))

theorem Between.quiet {M' : Contents} {l : ℕ → List Rec} (h : Between num M M' l)
    (hM : ContentsQuiet size M) (hM' : ContentsQuiet size M') : LogsQuiet size num l := by
  intro i hi r hr hl
  rcases h with h|h
  · rcases h.live hi hr hl with he|he <;> exact hM _ _ he
  · rcases h.live hi hr hl with he|he
    · exact hM _ _ he
    · exact hM' _ _ he

/-- The flash traffic of a `kv_set`, with the contents it leads to. -/
theorem Serving.set_traffic (h : Serving kv logs M g) (value : List UInt8) (h0 : 0 ∉ key)
    (hq : textQuiet false key = true) :
    ∃ ret kv' ops logs', kvSet kv key value = some (ret, kv') ∧ kv'.trace = kv.trace ++ ops ∧
      LogRun kv.size kv.num (Between kv.num M (if 0 ≤ ret then
        update M key (some value) else M)) logs ops logs' := by
  rcases kvSet_reaches h.toHolding h0 hq value with
    ⟨kv', logs', g', hkv, hr⟩|⟨kv', logs', g', hkv, hr⟩
  · obtain ⟨ops, ht, -, hrun⟩ := hr.advance.run
    refine ⟨_, kv', ops, logs', hkv, ht, ?_⟩
    exact hrun
  · obtain ⟨ops, ht, -, hrun⟩ := hr.advance.run
    refine ⟨_, kv', ops, logs', hkv, ht, ?_⟩
    exact hrun.mono fun _ hl => .inl hl

end Safe

end PineVoice.Kv
