import PineVoice.BootFlags

/-!
# The calls as steps of the machine

Every function of the boot flags is computed on the words of the slots. Boots, confirmations and
upgrades then simulate the abstract machine, whose invariant holds in every state that a device
can reach.
-/

namespace PineVoice.Bootab

open Function NorFlash Partitions

variable {env : EnvPartition} {st : BootState} {ab : Slot}

section Access

variable {off : ℕ}

/-- A read inside a sector. -/
theorem envRead_sector {size : ℕ} (hpos : 0 < size) (h : off+size ≤ bcSize+flagSize) :
    envRead env st (getEnvabOffset env ab+off : ℕ) size =
      (0, readBytes (sector env st.dev.mem ab) off size) := by
  have hlen := getEnvabOffset_le env ab
  have hfl := env.flags_le
  rw [envRead, partitionRead_inside hpos (by omega), sector, readBytes_window, add_assoc]
  rfl

/-- A write inside a sector. -/
theorem envWrite_sector {data : List UInt8} (hpos : 0 < data.length)
    (h : off+data.length ≤ bcSize+flagSize) :
    envWrite env st (getEnvabOffset env ab+off : ℕ) data =
      (0, { st with dev := writeSlot env ab st.dev off data }) := by
  have hlen := getEnvabOffset_le env ab
  have hfl := env.flags_le
  rw [envWrite, partitionWrite_inside hpos (by omega), writeSlot, add_assoc]
  rfl

/-- The sector is erased. -/
theorem bootabClearFlags_eq :
    bootabClearFlags env st ab = (0, { st with dev := eraseSlot env ab st.dev }) := by
  have hlen := env.length_ge
  rw [bootabClearFlags, envErase]
  cases ab with
  | a =>
    have h := partitionErase_sector (f := norOps) (s := st.dev) (k := 0)
      (show (0+1)*env.sectorSize ≤ env.length by omega)
    rw [zero_mul] at h
    rw [getEnvabOffset, h]
    rfl
  | b =>
    have h := partitionErase_sector (f := norOps) (s := st.dev) (k := 1)
      (show (1+1)*env.sectorSize ≤ env.length by omega)
    rw [one_mul] at h
    rw [getEnvabOffset, h]
    rfl

/-- The flags of a slot are read. -/
theorem readFlag_eq : readFlag env st ab =
    (0, decodeFlag (readBytes (sector env st.dev.mem ab) bcSize flagSize)) := by
  rw [readFlag, envRead_sector (by decide) le_rfl]

theorem readFlag_ret : (readFlag env st ab).1 = 0 := by rw [readFlag_eq]

theorem readFlag_activeVer : (readFlag env st ab).2.activeVer = (view env st.dev.mem ab).ver := by
  rw [readFlag_eq]
  exact le32_bufferMem (by decide)

theorem readFlag_rbFlag : (readFlag env st ab).2.rbFlag = (view env st.dev.mem ab).rb := by
  rw [readFlag_eq]
  exact le32_bufferMem (by decide)

theorem readFlag_finish : (readFlag env st ab).2.finish = (view env st.dev.mem ab).fin := by
  rw [readFlag_eq]
  exact le32_bufferMem (by decide)

theorem readFlag_img_length : (readFlag env st ab).2.imgVersion.length = 64 := by
  rw [readFlag_eq]
  rfl

end Access

section Selection

/-- The check is that of the machine. -/
theorem checkAbValid_readFlag :
    checkAbValid (readFlag env st ab).2 = true ↔ (view env st.dev.mem ab).Valid := by
  rw [checkAbValid, readFlag_activeVer, readFlag_finish, decide_eq_true_iff, Words.Valid]
  tauto

/-- So is the choice of a slot. -/
theorem selectAb_readFlag :
    selectAb (readFlag env st .a).2 (readFlag env st .b).2 = select (view env st.dev.mem) := by
  simp only [selectAb, select, checkAbValid_readFlag, readFlag_activeVer]
  split_ifs <;> first | rfl | tauto

/-- The machine's view of a device. -/
def abstractState (env : EnvPartition) (st : BootState) : AbState :=
  ⟨view env st.dev.mem, st.curSlot⟩

theorem bootabGetCurrentAb_eq : bootabGetCurrentAb env st =
    ((abstractState env st).current, { st with curSlot := (abstractState env st).current }) := by
  obtain ⟨dev, cur⟩ := st
  cases cur with
  | some x => rfl
  | none =>
    simp only [bootabGetCurrentAb, selectAb_readFlag, AbState.current, abstractState]
    cases select (view env dev.mem) <;> rfl

/-- After a restart the slot is chosen anew. -/
theorem bootabGetCurrentAb_restart : bootabGetCurrentAb env (restart st) =
    (select (view env st.dev.mem), { st with curSlot := select (view env st.dev.mem) }) :=
  bootabGetCurrentAb_eq

end Selection

section Functions

variable {dev : Nor}

/-- A write changes the words of one slot. -/
theorem view_writeSlot {off : ℕ} {data : List UInt8} (h : off+data.length ≤ bcSize+flagSize) :
    view env (writeSlot env ab dev off data).mem =
      update (view env dev.mem) ab (words (program (sector env dev.mem ab) off data)) :=
  view_program dev.mem (h.trans env.flags_le)

/-- So does an erase. -/
theorem view_eraseSlot : view env (eraseSlot env ab dev).mem =
    update (view env dev.mem) ab .erased :=
  view_erase dev.mem

theorem bootabSetInvalid_eq : bootabSetInvalid env st ab =
    (0, { st with dev := writeSlot env ab st.dev bcSize (leBytes 0) }) :=
  envWrite_sector (by decide) (by decide)

/-- Marking a slot invalid sets its version to zero. -/
theorem view_invalid : view env (writeSlot env ab dev bcSize (leBytes 0)).mem =
    update (view env dev.mem) ab { view env dev.mem ab with ver := 0 } := by
  rw [view_writeSlot (by decide), words_program_ver]
  rfl

/-- Writing the rollback word changes nothing else. -/
theorem view_switch (env : EnvPartition) (ab : Slot) (dev : Nor) (v : ℕ) : ∃ rb,
    view env (writeSlot env ab dev (bcSize+4) (leBytes v)).mem =
      update (view env dev.mem) ab { view env dev.mem ab with rb := rb } := by
  rw [view_writeSlot (by rw [leBytes_length]; decide)]
  exact ⟨_, rfl⟩

theorem envWrite_switch {v : ℕ} :
    envWrite env st (getEnvabOffset env ab+bcSize+4 : ℕ) (leBytes v) =
      (0, { st with dev := writeSlot env ab st.dev (bcSize+4) (leBytes v) }) := by
  have hlen := leBytes_length v
  rw [add_assoc, envWrite_sector (by omega) (by rw [hlen]; decide)]

theorem bootabSetFallbackEnable_eq : bootabSetFallbackEnable env st ab =
    if (view env st.dev.mem ab).rb ≠ rollbackEnFlag ∧ (view env st.dev.mem ab).ver ≠ eraseFlag then
      (0, { st with dev := writeSlot env ab st.dev (bcSize+4) (leBytes rollbackEnFlag) })
    else (0, st) := by
  simp only [bootabSetFallbackEnable, readFlag_ret, readFlag_rbFlag, readFlag_activeVer,
    envWrite_switch]
  split_ifs <;> tauto

theorem bootabSetFallbackDisable_eq : bootabSetFallbackDisable env st ab =
    if (view env st.dev.mem ab).rb = rollbackEnFlag then
      (0, { st with dev := writeSlot env ab st.dev (bcSize+4) (leBytes 0) })
    else (0, st) := by
  simp only [bootabSetFallbackDisable, readFlag_ret, readFlag_rbFlag, envWrite_switch,
    lt_irrefl, if_false]

/-- The switch `otaab_finish` throws on the running slot. -/
theorem switch_spec (env : EnvPartition) (st : BootState) (ab : Slot) (abFallback : ℤ) :
    ∃ dev rb,
    (if abFallback = 1 then bootabSetFallbackEnable env st ab
      else bootabSetFallbackDisable env st ab) = (0, { st with dev := dev }) ∧
    view env dev.mem = update (view env st.dev.mem) ab { view env st.dev.mem ab with rb := rb } ∧
    (rb = (view env st.dev.mem ab).rb ∨ (view env st.dev.mem ab).ver ≠ eraseFlag ∨
      (view env st.dev.mem ab).rb = rollbackEnFlag) := by
  have hsame : view env st.dev.mem = update (view env st.dev.mem) ab
      { view env st.dev.mem ab with rb := (view env st.dev.mem ab).rb } :=
    (update_eq_self ab _).symm
  split_ifs with hf
  · rw [bootabSetFallbackEnable_eq]
    split_ifs with hc
    · obtain ⟨rb, hrb⟩ := view_switch env ab st.dev rollbackEnFlag
      exact ⟨_, rb, rfl, hrb, .inr (.inl hc.2)⟩
    · exact ⟨st.dev, _, rfl, hsame, .inl rfl⟩
  · rw [bootabSetFallbackDisable_eq]
    split_ifs with hc
    · obtain ⟨rb, hrb⟩ := view_switch env ab st.dev 0
      exact ⟨_, rb, rfl, hrb, .inr (.inr hc)⟩
    · exact ⟨st.dev, _, rfl, hsame, .inl rfl⟩

/-- On a blank sector the flag is written and read back. -/
theorem bootabSetValid_eq (st : BootState) (imgVersion : Option (List UInt8))
    (hb : Blank (sector env st.dev.mem ab) 0 env.sectorSize) :
    ∃ f : Flag, (encodeFlag f).length = flagSize ∧ f.imgVersion.length = 64 ∧
      f.activeVer = ((view env st.dev.mem ab.other).ver+2^32-1) % 2^32 ∧
      f.rbFlag = rollbackEnFlag ∧ f.finish = finishFlag ∧
      words (program (sector env st.dev.mem ab) bcSize (encodeFlag f)) =
        ⟨f.activeVer, f.rbFlag, f.finish⟩ ∧
      bootabSetValid env st ab imgVersion =
        (0, { st with dev := writeSlot env ab st.dev bcSize (encodeFlag f) }) := by
  set f := validFlag (readFlag env st ab.other).2 imgVersion with hf
  have himg : f.imgVersion.length = 64 := validFlag_img_length readFlag_img_length
  have hlen : (encodeFlag f).length = flagSize := encodeFlag_length himg
  have hver : f.activeVer = ((view env st.dev.mem ab.other).ver+2^32-1) % 2^32 := by
    simp only [hf, validFlag, readFlag_activeVer]
  have hwords : words (program (sector env st.dev.mem ab) bcSize (encodeFlag f)) =
      ⟨f.activeVer, f.rbFlag, f.finish⟩ := by
    refine words_encodeFlag (holds_program (hb.mono (Nat.zero_le _) ?_)) himg ?_ ?_ ?_
    · rw [hlen]
      exact env.flags_le
    · exact Nat.mod_lt _ (by decide)
    · exact (by decide : rollbackEnFlag < 2^32)
    · exact (by decide : finishFlag < 2^32)
  have hwrite : envWrite env st (getEnvabOffset env ab+bcSize : ℕ) (encodeFlag f) =
      (0, { st with dev := writeSlot env ab st.dev bcSize (encodeFlag f) }) :=
    envWrite_sector (by rw [hlen]; decide) (by rw [hlen])
  have hback : view env (writeSlot env ab st.dev bcSize (encodeFlag f)).mem ab =
      ⟨f.activeVer, f.rbFlag, f.finish⟩ := by
    rw [view_writeSlot (by rw [hlen]), update_self, hwords]
  refine ⟨f, hlen, himg, hver, rfl, rfl, hwords, ?_⟩
  simp only [bootabSetValid, readFlag_ret, ←hf, hwrite, readFlag_activeVer, readFlag_finish, hback,
    lt_irrefl, if_false, ne_eq, not_true_eq_false, or_self]

end Functions

section Counter

theorem countWords_congr {m m' : Mem} {n i : ℕ}
    (h : ∀ j, i ≤ j → j < i+n → le32 m (4*j) = le32 m' (4*j)) (cnt : ℕ) :
    countWords m n i cnt = countWords m' n i cnt := by
  induction n generalizing i cnt with
  | zero => rfl
  | succ n ih =>
    rw [countWords, h i le_rfl (by omega)]
    exact ih (fun j hj hn => h j (by omega) (by omega)) _

/-- The boot count in a sector. -/
def bootCount (m : Mem) : ℕ := countWords m 32 0 0

/-- The counter is read from its sector. -/
theorem bootabGetBootcount_eq :
    bootabGetBootcount env st ab = bootCount (sector env st.dev.mem ab) := by
  have hread : envRead env st (getEnvabOffset env ab : ℕ) bcSize =
      (0, readBytes (sector env st.dev.mem ab) 0 bcSize) := by
    rw [←add_zero (getEnvabOffset env ab), envRead_sector (by decide) (by decide)]
  have hcount : countWords (bufferMem (readBytes (sector env st.dev.mem ab) 0 bcSize)) 32 0 0 =
      bootCount (sector env st.dev.mem ab) := by
    refine countWords_congr (fun j _ hj => ?_) 0
    have hin : 4*j+4 ≤ bcSize := by
      rw [bcSize]
      omega
    rw [le32_bufferMem hin, zero_add]
  simp only [bootabGetBootcount, hread, hcount, lt_irrefl, if_false]

/-- Resets that count as failed boots. -/
def BootReason.counts : BootReason → Bool
  | .wdt => true
  | .soft => true
  | .power => false
  | .other => false

variable {reason : BootReason} {cnt : ℕ}

theorem bootabSetBootcount_eq (h : cnt < 30) :
    (bootabSetBootcount env st ab reason cnt).2 =
      if reason.counts then { st with dev := writeSlot env ab st.dev (4*cnt) (leBytes 0) }
      else st := by
  have hoff : (getEnvabOffset env ab : ℤ)+4*(cnt : ℤ) = (getEnvabOffset env ab+4*cnt : ℕ) := by
    rfl
  have hin : 4*cnt+(leBytes 0).length ≤ bcSize+flagSize := by
    simp only [leBytes_length, bcSize]
    omega
  rw [bootabSetBootcount, if_neg (by omega), hoff, envWrite_sector (by decide) hin]
  cases reason <;> rfl

/-- Counting a boot leaves the words. -/
theorem view_counted {dev : Nor} (h : cnt < 30) :
    view env (writeSlot env ab dev (4*cnt) (leBytes 0)).mem = view env dev.mem := by
  have hin : 4*cnt+(leBytes 0).length ≤ bcSize := by
    simp only [leBytes_length, bcSize]
    omega
  rw [view_writeSlot (hin.trans (by decide)), words_program_counter _ hin]
  exact update_eq_self ab _

/-- The state after a boot was counted. -/
def countBoot (env : EnvPartition) (st : BootState) (ab : Slot) (reason : BootReason) : BootState :=
  if reason.counts then
    { st with dev := writeSlot env ab st.dev (4*bootCount (sector env st.dev.mem ab)) (leBytes 0) }
  else st

/-- A counted boot leaves the words. -/
theorem view_countBoot (h : bootCount (sector env st.dev.mem ab) < bootLimit) :
    view env (countBoot env st ab reason).dev.mem = view env st.dev.mem := by
  rw [countBoot]
  split_ifs
  · exact view_counted (h.trans (by decide))
  · rfl

/-- The fallback step on the words and the boot count. -/
theorem bootabFallback_eq : bootabFallback env st ab reason =
    if (view env st.dev.mem ab).rb = rollbackEnFlag then
      if bootLimit ≤ bootCount (sector env st.dev.mem ab) then
        (some ab.other, { st with dev := writeSlot env ab st.dev bcSize (leBytes 0) })
      else (none, countBoot env st ab reason)
    else (none, st) := by
  simp only [bootabFallback, bootabGetFallbackIsEnable, readFlag_rbFlag, decide_eq_true_iff,
    bootabGetBootcount_eq, bootabSetInvalid_eq, Nat.cast_le]
  split_ifs with hrb hlim
  · rfl
  · have hlt : bootCount (sector env st.dev.mem ab) < 30 :=
      (Nat.lt_of_not_le hlim).trans (by decide)
    rw [bootabSetBootcount_eq hlt, countBoot]
  · rfl

/-- The fallback step gives up the slot, or leaves the words. -/
theorem bootabFallback_view (env : EnvPartition) (st : BootState) (ab : Slot)
    (reason : BootReason) :
    (view env st.dev.mem ab).rb = rollbackEnFlag ∧
        view env (bootabFallback env st ab reason).2.dev.mem = update
          (view env st.dev.mem) ab { view env st.dev.mem ab with ver := 0 } ∨
      view env (bootabFallback env st ab reason).2.dev.mem = view env st.dev.mem := by
  rw [bootabFallback_eq]
  split_ifs with hrb hlim
  · rw [view_invalid]
    exact .inl ⟨hrb, rfl⟩
  · exact Or.inr (view_countBoot (Nat.lt_of_not_le hlim))
  · exact .inr rfl

end Counter

section Steps

/-- A boot is a step of the machine. -/
theorem boot_step (env : EnvPartition) (st : BootState) (reason : BootReason) :
    AbStep 0 (abstractState env st) (abstractState env (boot env st reason)) := by
  simp only [boot, bootabGetCurrentAb_restart]
  cases hs : select (view env st.dev.mem) with
  | none =>
    simp only [hs]
    have hstep := AbStep.select (v := view env st.dev.mem) (r := st.curSlot)
    rwa [hs] at hstep
  | some x =>
    rcases bootabFallback_view env { st with curSlot := some x } x reason with ⟨hrb, hv⟩|hv
    · have hstep := AbStep.fallback (r := st.curSlot) hs hrb
      simpa only [abstractState, hv] using hstep
    · have hstep := AbStep.select (v := view env st.dev.mem) (r := st.curSlot)
      simpa only [abstractState, hv] using hstep

variable {s : Slot}

/-- `otaab_finish` on the words: it always completes. -/
theorem otaabFinish_eq (hs : (abstractState env st).current = some s) (abFallback : ℤ) : ∃ dev rb,
    otaabFinish env st abFallback = some (true, ⟨dev, some s⟩) ∧
    view env dev.mem = update (update (view env st.dev.mem) s.other .erased) s
      { view env st.dev.mem s with rb := rb } ∧
    (rb = (view env st.dev.mem s).rb ∨ (view env st.dev.mem s).ver ≠ eraseFlag ∨
      (view env st.dev.mem s).rb = rollbackEnFlag) := by
  have hsame : view env (eraseSlot env s.other st.dev).mem s = view env st.dev.mem s := by
    rw [view_eraseSlot, update_of_ne s.other_ne.symm]
  obtain ⟨dev, rb, hret, hview, hrb⟩ := switch_spec env
    ⟨eraseSlot env s.other st.dev, some s⟩ s abFallback
  rw [hsame, view_eraseSlot] at hview
  rw [hsame] at hrb
  refine ⟨dev, rb, ?_, hview, hrb⟩
  simp only [otaabFinish, bootabGetCurrentAb_eq, hs, bootabClearFlags_eq, ne_eq,
    not_true_eq_false, if_false, hret, decide_true]

/-- `otaab_upgrade_end` erases the other sector and writes one flag. -/
theorem otaabUpgradeEnd_eq (hs : (abstractState env st).current = some s)
    (imgVersion : Option (List UInt8)) : ∃ f : Flag,
    (encodeFlag f).length = flagSize ∧ f.imgVersion.length = 64 ∧
    f.activeVer = ((view env st.dev.mem s).ver+2^32-1) % 2^32 ∧
    f.rbFlag = rollbackEnFlag ∧ f.finish = finishFlag ∧
    view env (writeSlot env s.other (eraseSlot env s.other st.dev) bcSize (encodeFlag f)).mem =
      update (view env st.dev.mem) s.other ⟨f.activeVer, f.rbFlag, f.finish⟩ ∧
    otaabUpgradeEnd env st imgVersion = some (0,
      ⟨writeSlot env s.other (eraseSlot env s.other st.dev) bcSize (encodeFlag f), some s⟩) := by
  have hblank : Blank (sector env (eraseSlot env s.other st.dev).mem s.other) 0 env.sectorSize :=
    blank_sector_erase st.dev.mem
  obtain ⟨f, hlen, himg, hver, hrb, hfin, hwords, hret⟩ := bootabSetValid_eq
    ⟨eraseSlot env s.other st.dev, some s⟩ imgVersion hblank
  rw [view_eraseSlot, Slot.other_other, update_of_ne s.other_ne.symm] at hver
  refine ⟨f, hlen, himg, hver, hrb, hfin, ?_, ?_⟩
  · rw [view_writeSlot (by rw [hlen]), hwords, view_eraseSlot, update_idem]
  · have hself : view env (eraseSlot env s.other st.dev).mem s.other = .erased := by
      rw [view_eraseSlot, update_self]
    simp only [otaabUpgradeEnd, bootabGetCurrentAb_eq, hs, bootabClearFlags_eq,
      bootabSetFallbackEnable_eq, hself, Words.erased, ne_eq, not_true_eq_false, and_false,
      lt_irrefl, if_false, hret]

/-- Erasing all sectors of the env partition. -/
theorem view_wipe : view env (envErase env st 0 (env.length/env.sectorSize)).2.dev.mem =
    fun _ => .erased := by
  have hpos := env.sector_pos
  have hlen := env.length_ge
  have hlt := env.addr_lt
  have hfl := env.flags_le
  have htwo : 2 ≤ env.length/env.sectorSize := (Nat.le_div_iff_mul_le hpos).mpr (by omega)
  have hall : 2*env.sectorSize ≤ env.length/env.sectorSize*env.sectorSize :=
    Nat.mul_le_mul_right _ htwo
  have hle := Nat.div_mul_le_self env.length env.sectorSize
  have herase : (envErase env st 0 (env.length/env.sectorSize)).2.dev.mem =
      erase st.dev.mem env.addr (env.length/env.sectorSize*env.sectorSize) := by
    rw [envErase, partitionErase, if_neg (by omega), Int.toNat_zero, Nat.zero_div, zero_add,
      if_pos (Nat.mod_le _ _), deviceAddr_inside (by omega), Nat.mod_eq_of_lt (by omega)]
    rfl
  funext x
  have hoff : getEnvabOffset env x ≤ env.sectorSize := by
    cases x with
    | a => exact Nat.zero_le _
    | b => exact le_rfl
  rw [herase]
  exact words_blank fun i _ hi => erase_inside (by omega) (by omega)

/-- `bootab_init` selects a slot, or erases everything where there is none. -/
theorem init_step (env : EnvPartition) (st : BootState) (kernelNone : Bool) :
    AbStep 0 (abstractState env st)
      (abstractState env (bootabInit env (restart st) kernelNone).2) := by
  have hroom : ¬env.length < ((env.sectorSize*2) % 2^32+1024) % 2^32 := by
    have hlen := env.length_ge
    omega
  rw [bootabInit, if_neg hroom]
  cases hs : select (view env st.dev.mem) with
  | some x =>
    have htry : initTries env 4 0 (restart st) = (0, { st with curSlot := some x }) := by
      rw [initTries, bootabGetCurrentAb_restart, hs]
    rw [htry]
    have hstep := AbStep.select (v := view env st.dev.mem) (r := st.curSlot)
    rwa [hs] at hstep
  | none =>
    have hcur : bootabGetCurrentAb env (restart st) = (none, restart st) := by
      rw [bootabGetCurrentAb_restart, hs]
      rfl
    have htry : initTries env 4 0 (restart st) = (4, restart st) := by
      simp only [initTries, hcur]
      rfl
    rw [htry]
    cases kernelNone with
    | false =>
      have hstep := AbStep.select (v := view env st.dev.mem) (r := st.curSlot)
      rwa [hs] at hstep
    | true =>
      have hstep := AbStep.wipe (r := st.curSlot) hs
      have hwipe : view env (envErase env (restart st) 0 (env.length/env.sectorSize)).2.dev.mem =
          fun _ => .erased := view_wipe
      rwa [←hwipe] at hstep

/-- Every action is a step of the machine. -/
theorem step_simulates {act : Action} {n : ℕ} {next : BootState}
    (h : step env st act = some (n, next)) :
    AbStep n (abstractState env st) (abstractState env next) := by
  cases act with
  | boot reason =>
    cases h
    exact boot_step env st reason
  | init kernelNone =>
    cases h
    exact init_step env st kernelNone
  | finish abFallback =>
    cases hs : (abstractState env st).current with
    | none =>
      simp only [step, otaabFinish, bootabGetCurrentAb_eq, hs, Option.map_none, reduceCtorEq] at h
    | some s =>
      obtain ⟨dev, rb, hret, hview, hrb⟩ := otaabFinish_eq hs abFallback
      rw [step, hret] at h
      cases h
      have hstep := AbStep.finish hs hrb
      rwa [←hview] at hstep
  | upgradeEnd imgVersion =>
    cases hs : (abstractState env st).current with
    | none =>
      simp only [step, otaabUpgradeEnd, bootabGetCurrentAb_eq, hs, Option.map_none,
        reduceCtorEq] at h
    | some s =>
      obtain ⟨f, -, -, hver, hrb, hfin, hview, hret⟩ := otaabUpgradeEnd_eq hs imgVersion
      rw [step, hret] at h
      cases h
      have hstep := AbStep.upgrade hs
      rw [hver, hrb, hfin] at hview
      rwa [←hview] at hstep

/-- The invariant of the machine holds in every state a device can reach. -/
theorem Reachable.sound {k : ℕ} (h : Reachable env k st) : (abstractState env st).Sound k := by
  induction h with
  | @erased dev hblank =>
    have hview : view env dev.mem = fun _ => .erased := by
      funext x
      have hle := getEnvabOffset_le env x
      have hfl := env.flags_le
      exact words_blank fun i _ hi => hblank _ (by omega) (by omega)
    rw [abstractState, hview]
    exact ⟨fun _ => .erased 0, fun x hx => kept_of_select hx⟩
  | step _ hs ih => exact ih.step (step_simulates hs)

end Steps

end PineVoice.Bootab
