import PineVoice.KvPowerLoss

/-!
# Atomicity of `kv_set` under power loss

When every record that was stored escapes the scanner in its torn form, a cut of `kv_set` leaves
the old or the new value of the key and spares all others. Text without the delimiter and without
line ends is of this kind for almost all lengths; a key with a delimiter is not.
-/

namespace PineVoice.Kv

open NorFlash List

/-- Keys and values whose torn records the scanner never takes for anything:
no delimiter or line end in the key, no zero or line end in the value, and no
delimiter among the size bytes. -/
structure PlainText (key value : List UInt8) : Prop where
  /-- The record can be stored. -/
  storable : Storable key value
  /-- No delimiter in the key. -/
  key_delim : 0x3D ∉ key
  /-- No line end in the key. -/
  key_line : 0x0A ∉ key
  /-- No zero in the value. -/
  value_nul : 0 ∉ value
  /-- No line end in the value. -/
  value_line : 0x0A ∉ value
  /-- The low size byte is not zero. -/
  size_nul : value.length % 256 ≠ 0
  /-- The low size byte is not the delimiter. -/
  size_delim : value.length % 256 ≠ 0x3D
  /-- The high size byte is not the delimiter. -/
  hi_delim : key.length ≠ 15 ∨ value.length < 256

section Text

variable {key value : List UInt8}

theorem textQuiet_take {pending : Bool} {bs : List UInt8} (h : textQuiet pending bs = true)
    (n : ℕ) : textQuiet pending (bs.take n) = true := by
  induction bs generalizing pending n with
  | nil => rw [take_nil, textQuiet]
  | cons b bs ih =>
    cases n with
    | zero => rw [take_zero, textQuiet]
    | succ n =>
      rw [take_succ_cons]
      rw [textQuiet] at h ⊢
      split at h
      · next h0 =>
        rw [if_pos h0]
        exact ih h n
      · next h0 =>
        rw [if_neg h0]
        split at h
        · next hd =>
          rw [if_pos hd]
          exact ih h n
        · next hd =>
          rw [if_neg hd]
          split at h
          · next hl =>
            rw [Bool.and_eq_true] at h
            rw [if_pos hl, h.1, ih h.2 n]
            rfl
          · next hl =>
            rw [if_neg hl]
            split at h
            · next hr =>
              rw [if_pos hr]
              exact ih h n
            · next hr =>
              rw [if_neg hr]
              exact ih h n

/-- Without a pending delimiter a byte other than the delimiter leaves none
pending. -/
theorem textQuiet_cons_false {b : UInt8} (hb : b ≠ 0x3D) (bs : List UInt8) :
    textQuiet false (b :: bs) = textQuiet false bs := by
  rw [textQuiet]
  split
  · rfl
  · split
    · rfl
    · split <;> rfl

theorem textQuiet_append_false {xs : List UInt8} (h : 0x3D ∉ xs) (ys : List UInt8) :
    textQuiet false (xs ++ ys) = textQuiet false ys := by
  induction xs with
  | nil => rfl
  | cons x xs ih =>
    rw [mem_cons, not_or] at h
    rw [cons_append, textQuiet_cons_false fun he => h.1 he.symm, ih h.2]

section

variable (h : PlainText key value)
include h

theorem PlainText.lo_ne : sizeLo value.length ≠ 0 ∧ sizeLo value.length ≠ 0x3D := by
  have hlo := sizeLo_toNat value.length
  have h1 := h.size_nul
  have h2 := h.size_delim
  constructor
  · intro he
    rw [he] at hlo
    exact h1 hlo.symm
  · intro he
    rw [he] at hlo
    exact h2 hlo.symm

theorem PlainText.hi_ne :
    sizeHi key.length value.length ≠ 0 ∧ sizeHi key.length value.length ≠ 0x3D ∧
      sizeHi key.length value.length ≠ 0xFF := by
  have hk := h.storable.key_pos
  have hk' := h.storable.key_le
  have hs := h.storable.size_lt
  have hhi := sizeHi_toNat hk' (show value.length < 1024 by omega)
  have h3 := h.hi_delim
  refine ⟨fun he => ?_, fun he => ?_, fun he => ?_⟩
  · rw [he] at hhi
    change 0 = _ at hhi
    omega
  · rw [he] at hhi
    change 61 = _ at hhi
    omega
  · rw [he] at hhi
    change 255 = _ at hhi
    omega

/-- The text part of the scan passes every prefix of the record. -/
theorem PlainText.textQuiet_core (version : UInt8) :
    textQuiet false (key ++ ([0, sizeLo value.length, sizeHi key.length value.length, version,
      0x3D] ++ value)) = true := by
  have hvalue : ∀ pending, textQuiet pending value = true :=
    textQuiet_of_not_mem h.value_line
  rw [textQuiet_append_false h.key_delim]
  simp only [cons_append]
  rw [textQuiet_cons_false (by decide), textQuiet_cons_false h.lo_ne.2,
    textQuiet_cons_false h.hi_ne.2.1]
  have hdelim : ∀ pending, textQuiet pending (0x3D :: value) = true := fun pending => by
    exact hvalue true
  by_cases hv : version = 0x3D
  · rw [hv]
    exact hdelim true
  · rw [textQuiet_cons_false hv]
    exact hdelim false

/-- The zero behind the key starts no record while the closing size byte is
missing. -/
theorem PlainText.rwCheck_torn {version : UInt8} {size off b : ℕ} {m : Mem}
    (hs : off+recSize key value+4 ≤ size) (ht : Holds m off ((recordCore key value version).take b))
    (hb : b ≤ key.length+value.length+5) (hblank : Blank m (off+b) size) :
    rwCheck size m (off+key.length) = false := by
  have ha := align4_spec (key.length+value.length+6)
  rw [recSize] at hs
  rw [rwCheck, decide_eq_false_iff_not]
  rintro ⟨hdelim, -, -, hclose⟩
  rcases lt_or_ge b (key.length+5) with hlt|hge
  · rw [hblank _ (by omega) (by omega)] at hdelim
    exact absurd hdelim (by decide)
  · have hhead : Holds m off (key ++ [0, sizeLo value.length, sizeHi key.length value.length,
        version, 0x3D]) := by
      have hsplit : (recordCore key value version).take b = (key ++ [0, sizeLo value.length,
          sizeHi key.length value.length, version, 0x3D]) ++
          (value ++ [sizeHi key.length value.length]).take (b-(key.length+5)) := by
        rw [recordCore, ←append_assoc, take_append, take_of_length_le]
        · simp only [length_append, length_cons, length_nil]
        · simp only [length_append]
          omega
      rw [hsplit, holds_append] at ht
      exact ht.1
    rw [holds_append] at hhead
    obtain ⟨-, -, hlo, hhi, -⟩ := hhead
    have hsize : valueSizeAt m (off+key.length) = value.length := by
      have hk := h.storable.key_le
      have hlt := h.storable.size_lt
      exact (decode_sizes hk (by omega) hlo hhi).1
    rw [show m (off+key.length+2) = sizeHi key.length value.length from hhi,
      hblank _ (by omega) (by omega)] at hclose
    exact h.hi_ne.2.2 hclose

/-- The only zero of the record is the one behind the key. -/
theorem PlainText.core_eq_zero {version : UInt8} (hv : version ≠ 0) {i : ℕ}
    (hi : (recordCore key value version)[i]? = some 0) : i = key.length := by
  have hlo := h.lo_ne.1
  have hhi := h.hi_ne.1
  have hrest : 0 ∉ [sizeLo value.length, sizeHi key.length value.length, version, 0x3D] ++
      (value ++ [sizeHi key.length value.length]) := by
    simp only [mem_append, mem_cons, not_mem_nil, or_false, not_or]
    exact ⟨⟨hlo.symm, hhi.symm, hv.symm, by decide⟩, h.value_nul, hhi.symm⟩
  rcases lt_trichotomy i key.length with hlt|heq|hgt
  · rw [recordCore, getElem?_append_left hlt] at hi
    exact absurd (mem_of_getElem? hi) h.storable.key_nul
  · exact heq
  · obtain ⟨j, rfl⟩ : ∃ j, i = key.length+(j+1) := ⟨i-key.length-1, by omega⟩
    rw [recordCore, getElem?_append_right (by omega), Nat.add_sub_cancel_left,
      cons_append, getElem?_cons_succ] at hi
    exact absurd (mem_of_getElem? hi) hrest

/-- Plain text escapes the scanner when torn. -/
theorem PlainText.tornQuiet (size : ℕ) : TornQuiet size key value := by
  intro version off b m hv _ hblank hs hb m' hagree block
  have ha := align4_spec (key.length+value.length+6)
  have hcore := recordCore_length key value version
  have htake : (recordBuffer key value version).take b = (recordCore key value version).take b := by
    rw [recordBuffer_eq, take_append_of_le_length (by omega)]
  have hlen : ((recordCore key value version).take b).length = b := by
    rw [length_take]
    omega
  have hsize := hs
  rw [recSize] at hsize
  rw [htake] at hagree
  have ht : Holds m' off ((recordCore key value version).take b) :=
    (holds_program (hblank.mono le_rfl (by omega))).congr (hagree.mono le_rfl (by omega))
  have hrest : Blank m' (off+b) size := by
    intro i h1 h2
    rw [hagree i (by omega) h2, program_outside (.inr (by omega))]
    exact hblank i (by omega) h2
  have hat : ∀ i, i < b → m' (off+i) = 0 → i = key.length := by
    intro i hi hz
    have hget := ht.getD (show i < ((recordCore key value version).take b).length by omega) 0
    rw [hz, getD_eq_getElem?_getD, getElem?_take_of_lt hi,
      getElem?_eq_getElem (by omega), Option.getD_some] at hget
    exact h.core_eq_zero hv (by rw [getElem?_eq_getElem (by omega), ←hget])
  have hzero : ∀ i, i < ((recordCore key value version).take b).length → m' (off+i) = 0 →
      rwCheck size m' (off+i) = false := by
    intro i hi hz
    rw [hat i (by omega) hz]
    exact h.rwCheck_torn hs ht hb hrest
  have htext : textQuiet false ((recordCore key value version).take b) = true := by
    have hfront : (recordCore key value version).take b = (key ++ ([0, sizeLo value.length,
        sizeHi key.length value.length, version, 0x3D] ++ value)).take b := by
      rw [recordCore, ←append_assoc, ←append_assoc, take_append_of_le_length, append_assoc]
      simp only [length_append, length_cons]
      omega
    rw [hfront]
    exact textQuiet_take (h.textQuiet_core version) b
  have hfirst : m' off ≠ 0 := by
    rcases eq_zero_or_pos b with rfl|hpos
    · rw [hrest off (by omega) (by omega)]
      decide
    · intro hz
      have hk := h.storable.key_pos
      have hat0 := hat 0 hpos (by rw [add_zero, hz])
      omega
  obtain ⟨delim, he⟩ := searchLoop_text size block off (size-1-off-b) ht hzero
    (show textQuiet (none : Option ℕ).isSome _ = true from htext)
  rw [hlen, show b+(size-1-off-b) = size-1-off by omega] at he
  rw [kvblockSearch, skipZeros_of_ne hfirst, he]
  exact searchLoop_blank (hrest.mono le_rfl (by omega))

theorem PlainText.safe (size : ℕ) : (Call.set key value).Safe size :=
  ⟨h.storable.key_nul, h.storable.key_quiet, fun _ => h.tornQuiet size⟩

end

end Text

section Atomic

variable {flash : Mem} {num size : ℕ}

theorem Recoverable.congr {before M : Contents} {logs logs' : ℕ → List Rec}
    (h : Recoverable num before M logs) (hc : ∀ k, copies num logs' k = copies num logs k) :
    Recoverable num before M logs' := by
  obtain ⟨k, hnew, hsole⟩ := h
  refine ⟨k, by rw [hc]; exact hnew, fun key hk => ?_⟩
  rw [hc]
  exact hsole key hk

/-- A start on a cut image holds the contents from before or those after. -/
theorem Serving.cut {kv : Kvset} {logs logs' : ℕ → List Rec} {M M' : Contents} {g : ℕ}
    (h : Serving kv logs M g) (hid : kv.num ≤ 65535) {ops : List Op}
    (hrun : LogRun kv.size kv.num (Between kv.num M M') logs ops logs')
    (hM : ContentsQuiet kv.size M) (hM' : ContentsQuiet kv.size M') (n b : ℕ) :
    ∃ kv1, kvInit (cutImage kv.flash ops n b) kv.num kv.size = some kv1 ∧
      ((∀ key len, 0 ∉ key → kvGet kv1 key len = some (answer (M key) len)) ∨
        ∀ key len, 0 ∉ key → kvGet kv1 key len = some (answer (M' key) len)) := by
  have hready := h.ready
  have geo : Geometry kv.num kv.size :=
    ⟨hready.num_ge, hready.size_ge, hready.size_lt, hready.size_mod⟩
  obtain ⟨l, l', hl, -, himg, hlike, -⟩ :=
    hrun.cut hready rfl rfl n b fun _ l hl => hl.quiet hM hM'
  have hcopies := copies_congr hlike kv.num
  rcases hl with hl|hl
  · obtain ⟨kv1, logs1, hkv, hnum, hrep, hres⟩ := kvInit_recover geo hid himg (hl.congr hcopies)
    rw [←hnum] at hres
    exact ⟨kv1, hkv, .inl fun key len hk => kvGet_resolved hrep hres hk len⟩
  · obtain ⟨kv1, logs1, hkv, hnum, hrep, hres⟩ := kvInit_recover geo hid himg (hl.congr hcopies)
    rw [←hnum] at hres
    exact ⟨kv1, hkv, .inr fun key len hk => kvGet_resolved hrep hres hk len⟩

/-- After a power cut anywhere in a safe `kv_set` the key has its old value
or the new one, and no other key changes. -/
theorem kvSet_atomic (geo : Geometry num size) (hid : num ≤ 65535)
    (hb : Blank flash 0 (num*size)) {calls : List Call} (hc : ∀ c ∈ calls, c.Safe size)
    {kv kv' : Kvset} {replies : List Reply} (hinit : kvInit flash num size = some kv)
    (hrun : runCalls kv calls = some (replies, kv')) {key value : List UInt8}
    (hsafe : (Call.set key value).Safe size) :
    ∃ ret kv'' ops, kvSet kv' key value = some (ret, kv'') ∧ kv''.trace = kv'.trace ++ ops ∧
      ∀ n b, ∃ kv1, kvInit (cutImage kv'.flash ops n b) num size = some kv1 ∧
        ((∀ len, kvGet kv1 key len = kvGet kv' key len) ∨
          ∀ len, kvGet kv1 key len = some (answer (some value) len)) ∧
        ∀ k, k ≠ key → 0 ∉ k → ∀ len, kvGet kv1 k len = kvGet kv' k len := by
  obtain ⟨kv0, g0, hkv0, hserve0, hs0, hn0⟩ := kvInit_blank geo hb
  obtain rfl := Option.some.inj (hinit.symm.trans hkv0)
  obtain ⟨replies', kv1, logs, g, hrun', hserve, hs, hn⟩ :=
    hserve0.run fun c hc' => (hc c hc').quiet
  obtain ⟨rfl, rfl⟩ := Prod.mk.inj (Option.some.inj (hrun.symm.trans hrun'))
  have hquiet0 : ContentsQuiet size (fun _ => none) := fun _ _ hv => absurd hv (by simp)
  have hquiet := hquiet0.run hserve0 hc hrun
  obtain rfl : kv'.size = size := hs.trans hs0
  obtain rfl : kv'.num = num := hn.trans hn0
  generalize recorded (fun _ => none) calls replies = M at hserve hquiet
  obtain ⟨h0, hq, htorn⟩ := hsafe
  obtain ⟨ret, kv'', ops, logs', hset, htrace, hlog⟩ := hserve.set_traffic value h0 hq
  have hquiet' : ContentsQuiet kv'.size
      (if 0 ≤ ret then Function.update M key (some value) else M) := by
    split
    · next hret =>
      exact hquiet.update (htorn (kvSet_storable_of_success hserve.toHolding h0 hq hset hret))
    · exact hquiet
  have hget : ∀ k len, 0 ∉ k → kvGet kv' k len = some (answer (M k) len) :=
    fun k len hk => kvGet_resolved hserve.ready.toStoreRep hserve.resolved hk len
  refine ⟨ret, kv'', ops, hset, htrace, fun n b => ?_⟩
  obtain ⟨kv1, hkv1, hcase⟩ := hserve.cut hid hlog hquiet hquiet' n b
  refine ⟨kv1, hkv1, ?_⟩
  rcases hcase with hold|hnew
  · refine ⟨.inl fun len => ?_, fun k _ hk len => ?_⟩
    · rw [hold key len h0, hget key len h0]
    · rw [hold k len hk, hget k len hk]
  · by_cases hret : 0 ≤ ret
    · rw [if_pos hret] at hnew
      refine ⟨.inr fun len => ?_, fun k hne hk len => ?_⟩
      · rw [hnew key len h0, Function.update_self]
      · rw [hnew k len hk, hget k len hk, Function.update_of_ne hne]
    · rw [if_neg hret] at hnew
      refine ⟨.inl fun len => ?_, fun k _ hk len => ?_⟩
      · rw [hnew key len h0, hget key len h0]
      · rw [hnew k len hk, hget k len hk]

/-- Replacing a value of a two-block store. -/
theorem kvSet_atomic_short :
    ∃ kv replies kv', kvInit (fun _ => 0xFF) 2 512 = some kv ∧
      runCalls kv [.set [107] [118], .rm [120]] = some (replies, kv') ∧
      ∃ ret kv'' ops, kvSet kv' [107] [119, 119] = some (ret, kv'') ∧
        kv''.trace = kv'.trace ++ ops ∧
        ∀ n b, ∃ kv1, kvInit (cutImage kv'.flash ops n b) 2 512 = some kv1 ∧
          ((∀ len, kvGet kv1 [107] len = kvGet kv' [107] len) ∨
            ∀ len, kvGet kv1 [107] len = some (answer (some [119, 119]) len)) ∧
          ∀ k, k ≠ [107] → 0 ∉ k → ∀ len, kvGet kv1 k len = kvGet kv' k len := by
  have geo : Geometry 2 512 := ⟨by decide, by decide, by decide, by decide⟩
  have hplain : ∀ value, value = [118] ∨ value = [119, 119] → PlainText [107] value := by
    rintro value (rfl|rfl)
    · exact ⟨⟨by decide, by decide, by decide, by decide, by decide, by decide⟩, by decide,
        by decide, by decide, by decide, by decide, by decide, by decide⟩
    · exact ⟨⟨by decide, by decide, by decide, by decide, by decide, by decide⟩, by decide,
        by decide, by decide, by decide, by decide, by decide, by decide⟩
  have hsafe : ∀ c ∈ [Call.set [107] [118], Call.rm [120]], c.Safe 512 := by
    intro c hc
    rcases List.mem_cons.mp hc with rfl|hc
    · exact (hplain _ (.inl rfl)).safe 512
    · obtain rfl := List.mem_singleton.mp hc
      exact (by decide : (0 : UInt8) ∉ [120])
  have hblank : Blank (fun _ => 0xFF) 0 (2*512) := fun _ _ _ => rfl
  obtain ⟨kv, g, hinit, hserve, -, -⟩ := kvInit_blank geo hblank
  obtain ⟨replies, kv', -, -, hrun, -, -, -⟩ := hserve.run fun c hc => (hsafe c hc).quiet
  exact ⟨kv, replies, kv', hinit, hrun, kvSet_atomic geo (by decide) hblank hsafe hinit
    hrun ((hplain _ (.inr rfl)).safe 512)⟩

/-- Five bytes of a record with the key `a=b` and a value of ten bytes read as
the text line `a=b`: a key `a` that nobody stored appears. -/
theorem kvSet_not_atomic :
    ∃ kv ret kv' ops kv1, kvInit (fun _ => 0xFF) 2 512 = some kv ∧
      kvSet kv [97, 61, 98] (List.replicate 10 120) = some (ret, kv') ∧
      kv'.trace = kv.trace ++ ops ∧
      kvInit (cutImage kv.flash ops 0 5) 2 512 = some kv1 ∧
      kvGet kv [97] 100 = some (-1, []) ∧ kvGet kv1 [97] 100 = some (4, [0, 0, 0, 0]) := by
  obtain ⟨kv, hinit, ⟨ret, kv'⟩, hset, kv1, hcut, htrace, hbefore, hafter⟩ :
      ∃ kv, kvInit (fun _ => 0xFF) 2 512 = some kv ∧
      ∃ r, kvSet kv [97, 61, 98] (List.replicate 10 120) = some r ∧
      ∃ kv1, kvInit (cutImage kv.flash (r.2.trace.drop kv.trace.length) 0 5) 2 512 = some kv1 ∧
        r.2.trace = kv.trace ++ r.2.trace.drop kv.trace.length ∧
        kvGet kv [97] 100 = some (-1, []) ∧ kvGet kv1 [97] 100 = some (4, [0, 0, 0, 0]) := by
    decide +kernel
  exact ⟨kv, ret, kv', _, kv1, hinit, hset, htrace, hcut, hbefore, hafter⟩

end Atomic

end PineVoice.Kv
