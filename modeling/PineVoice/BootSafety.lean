import PineVoice.BootCount

/-!
# Confirming, upgrading and power loss

The invariant of the slot machine settles what a confirmation keeps, that an upgrade takes effect
and what a power cut leaves. The one weak point is an initial image in slot `b`: an erased sector
of slot `a` is valid with the same version and is preferred.
-/

namespace PineVoice.Bootab

open Function NorFlash Partitions List

variable {env : EnvPartition} {st next : BootState} {k : ℕ}

theorem current_of_get {s : Slot} (hs : (bootabGetCurrentAb env st).1 = some s) :
    (abstractState env st).current = some s := by
  rwa [bootabGetCurrentAb_eq] at hs

/-- Confirming the running slot keeps it, unless it is an initial image in
slot `b`. -/
theorem otaabFinish_keeps_iff {s : Slot} {abFallback : ℤ} (h : Reachable env k st)
    (hs : (bootabGetCurrentAb env st).1 = some s)
    (hf : otaabFinish env st abFallback = some (true, next)) :
    (bootabGetCurrentAb env (restart next)).1 = some s ↔
      s = .a ∨ (readFlag env st s).2.activeVer ≠ eraseFlag := by
  have hcur := current_of_get hs
  obtain ⟨dev, rb, hret, hview, -⟩ := otaabFinish_eq hcur abFallback
  rw [hf] at hret
  cases hret
  have hself : view env dev.mem s = { view env st.dev.mem s with rb := rb } := by
    rw [hview, update_self]
  have hother : (view env dev.mem s.other).ver = eraseFlag := by
    rw [hview, update_of_ne s.other_ne, update_self]
    rfl
  have hvalid : (view env dev.mem s).Valid := by
    rw [hself]
    exact (h.sound.kept s hcur).valid
  have hver : (view env dev.mem s).ver = (view env st.dev.mem s).ver := by rw [hself]
  have hle : (view env dev.mem s).ver ≤ eraseFlag := hver.trans_le (h.sound.words s).ver_le
  rw [bootabGetCurrentAb_restart, readFlag_activeVer, ←hver]
  exact select_against_erased hvalid hle hother

theorem reachable_fresh : Reachable smallEnv 0 freshState := .erased fun _ _ _ => rfl

example : (bootabGetCurrentAb smallEnv freshState).1 = some .a := by decide +kernel

/-- An initial image in slot `a` confirms itself. -/
theorem otaabFinish_keeps_small : ∃ next,
    otaabFinish smallEnv freshState 1 = some (true, next) ∧
      (bootabGetCurrentAb smallEnv (restart next)).1 = some .a := by
  have hcur : (bootabGetCurrentAb smallEnv freshState).1 = some .a := by decide +kernel
  obtain ⟨dev, rb, hret, -⟩ := otaabFinish_eq (current_of_get hcur) 1
  exact ⟨_, hret, (otaabFinish_keeps_iff reachable_fresh hcur hret).mpr (.inl rfl)⟩

/-- Slot `a` is upgraded from slot `b` and confirmed, then given up after five
soft resets: the erased slot `b` runs again. -/
def fallbackActs : List Action :=
  [Action.upgradeEnd none, Action.boot .power, Action.upgradeEnd none, Action.boot .power,
    Action.finish 1] ++ List.replicate 6 (Action.boot .soft)

/-- Confirming the slot that runs after the fallback starts the one that was
given up. -/
theorem otaabFinish_loses_slot : ∃ k st next,
    run smallEnv fallbackActs (0, freshState) = some (k, st) ∧ Reachable smallEnv k st ∧
      (bootabGetCurrentAb smallEnv st).1 = some .b ∧
      otaabFinish smallEnv st 1 = some (true, next) ∧
      (bootabGetCurrentAb smallEnv (restart next)).1 = some .a := by
  obtain ⟨⟨k, st⟩, hst, hcur, ⟨ok, next⟩, hret, hok, hsel⟩ :
      ∃ r, run smallEnv fallbackActs (0, freshState) = some r ∧
        (bootabGetCurrentAb smallEnv r.2).1 = some .b ∧
        ∃ f, otaabFinish smallEnv r.2 1 = some f ∧ f.1 = true ∧
          (bootabGetCurrentAb smallEnv (restart f.2)).1 = some .a := by
    decide +kernel
  cases hok
  exact ⟨k, st, next, hst, reachable_fresh.run hst, hcur, hret, hsel⟩

/-- A reported upgrade is selected by the next reset, with rollback enabled and
no boot counted. -/
theorem otaabUpgradeEnd_takes_effect {c : Slot} {imgVersion : Option (List UInt8)}
    (h : Reachable env k st) (hk : k < 2^31) (hc : (bootabGetCurrentAb env st).1 = some c)
    (hu : otaabUpgradeEnd env st imgVersion = some (0, next)) :
    (bootabGetCurrentAb env (restart next)).1 = some c.other ∧
      bootabGetFallbackIsEnable env (restart next) c.other = true ∧
      bootabGetBootcount env (restart next) c.other = 0 := by
  have hcur := current_of_get hc
  obtain ⟨f, hlen, himg, hver, hrb, hfin, hview, hret⟩ := otaabUpgradeEnd_eq hcur imgVersion
  rw [hu] at hret
  cases hret
  have hvalid := (h.sound.kept c hcur).valid
  have hle := (h.sound.words c).ver_le
  have hrecent := (h.sound.words c).recent hvalid.ver_ne_zero
  simp only [abstractState, eraseFlag] at hvalid hle hrecent
  set dev := writeSlot env c.other (eraseSlot env c.other st.dev) bcSize (encodeFlag f) with hdev
  have hother : view env dev.mem c.other = ⟨f.activeVer, f.rbFlag, f.finish⟩ := by
    rw [hview, update_self]
  have hself : view env dev.mem c = view env st.dev.mem c := by
    rw [hview, update_of_ne c.other_ne.symm]
  have hcount : Counted (sector env dev.mem c.other) 0 := by
    have hblank : Blank (sector env (eraseSlot env c.other st.dev).mem c.other) 0 env.sectorSize :=
      blank_sector_erase st.dev.mem
    have hfl := env.flags_le
    rw [hdev, writeSlot, sector_program]
    exact (counted_blank (hblank.mono le_rfl (by omega))).congr (agree_program (.inl le_rfl))
  refine ⟨?_, ?_, ?_⟩
  · rw [bootabGetCurrentAb_restart]
    refine select_against_newer ?_ ?_
    · rw [hother]
      exact .inr ⟨hfin, by simp only; omega⟩
    · rw [hother, hself]
      simp only
      omega
  · rw [bootabGetFallbackIsEnable, readFlag_rbFlag, decide_eq_true_iff]
    exact (congrArg Words.rb hother).trans hrb
  · rw [bootabGetBootcount_eq, Nat.cast_eq_zero]
    exact hcount.bootCount_eq (Nat.zero_le 30)

/-- The first upgrade of a device takes effect. -/
theorem otaabUpgradeEnd_takes_effect_small :
    (bootabGetCurrentAb smallEnv (restart upgradedState)).1 = some .b := by
  have hcur : (bootabGetCurrentAb smallEnv freshState).1 = some .a := by decide +kernel
  obtain ⟨f, -, -, -, -, -, -, hret⟩ := otaabUpgradeEnd_eq (current_of_get hcur) none
  have hnext := (otaabUpgradeEnd_takes_effect reachable_fresh (by decide) hcur hret).1
  rwa [upgradedState, hret]

/-- The device at the next power-up. -/
def powerUp (m : Mem) : BootState := ⟨⟨m, []⟩, none⟩

/-- What the loader finds at power-up: the running slot, or a finished upgrade
with rollback enabled. -/
def PowerUpOk (env : EnvPartition) (m : Mem) (s : Slot) : Prop :=
  ∃ x, (bootabGetCurrentAb env (powerUp m)).1 = some x ∧
    (x = s ∨ (readFlag env (powerUp m) x).2.finish = finishFlag ∧
      (readFlag env (powerUp m) x).2.rbFlag = rollbackEnFlag)

theorem powerUpOk_iff {m : Mem} {s : Slot} : PowerUpOk env m s ↔ Bootable (view env m) s := by
  simp only [PowerUpOk, readFlag_finish, readFlag_rbFlag, bootabGetCurrentAb_eq]
  rfl

/-- A flag of which the last byte is missing has no finish mark. -/
theorem torn_fin_ne {m : Mem} {data : List UInt8} {j : ℕ}
    (hb : Blank m 0 (bcSize+flagSize)) (hlen : data.length = flagSize) (hj : j < flagSize) :
    (words (program m bcSize (data.take j))).fin ≠ finishFlag := by
  have hlast : program m bcSize (data.take j) (bcSize+72+3) = 0xFF := by
    rw [program_outside, hb _ (Nat.zero_le _) (by decide)]
    rw [length_take, hlen]
    rw [flagSize] at hj ⊢
    omega
  intro hfin
  simp only [words, le32, hlast] at hfin
  have h255 : (0xFF : UInt8).toNat = 255 := rfl
  rw [finishFlag] at hfin
  omega

/-- A cut inside an erase and a write leaves the old image, or the erased sector
with a first part of the data. -/
theorem cutImage_erase_write (m : Mem) (addr len off : ℕ) (data : List UInt8) (n b : ℕ) :
    cutImage m [.erase addr len, .write off data] n b = m ∨
      ∃ j, cutImage m [.erase addr len, .write off data] n b =
        program (erase m addr len) off (data.take j) := by
  match n with
  | 0 => exact .inl rfl
  | 1 => exact .inr ⟨b, rfl⟩
  | n+2 => exact .inr ⟨data.length, by rw [take_length]; rfl⟩

/-- The words after a cut inside an upgrade. -/
theorem bootable_cut {s : Slot} {f : Flag} {j : ℕ} (hvalid : (view env st.dev.mem s).Valid)
    (hle : (view env st.dev.mem s).ver ≤ eraseFlag)
    (hc : s = .a ∨ (view env st.dev.mem s).ver ≠ eraseFlag)
    (hlen : (encodeFlag f).length = flagSize) (hrb : f.rbFlag = rollbackEnFlag)
    (hfin : f.finish = finishFlag)
    (hview : view env (writeSlot env s.other (eraseSlot env s.other st.dev) bcSize
      (encodeFlag f)).mem =
      update (view env st.dev.mem) s.other ⟨f.activeVer, f.rbFlag, f.finish⟩) :
    Bootable (view env (program (eraseSlot env s.other st.dev).mem
      (env.addr+getEnvabOffset env s.other+bcSize) ((encodeFlag f).take j))) s := by
  by_cases hj : flagSize ≤ j
  · rw [take_of_length_le (hlen.trans_le hj)]
    have hmem : (writeSlot env s.other (eraseSlot env s.other st.dev) bcSize (encodeFlag f)).mem =
        program (eraseSlot env s.other st.dev).mem (env.addr+getEnvabOffset env s.other+bcSize)
          (encodeFlag f) := rfl
    rw [hmem] at hview
    rw [hview]
    apply bootable_of_upgraded
    · rw [update_of_ne s.other_ne.symm]
      exact hvalid
    · rw [update_self]
      exact ⟨hfin, hrb⟩
  · have hfl := env.flags_le
    have hshort : bcSize+((encodeFlag f).take j).length ≤ env.sectorSize := by
      rw [length_take]
      omega
    have hblank : Blank (sector env (eraseSlot env s.other st.dev).mem s.other) 0 env.sectorSize :=
      blank_sector_erase st.dev.mem
    set v := view env (program (eraseSlot env s.other st.dev).mem
      (env.addr+getEnvabOffset env s.other+bcSize) ((encodeFlag f).take j)) with hv
    have hself : v s = view env st.dev.mem s := by
      rw [hv, view_program _ hshort, update_of_ne s.other_ne.symm, view_eraseSlot,
        update_of_ne s.other_ne.symm]
    have hother : (v s.other).fin ≠ finishFlag := by
      rw [hv, view_program _ hshort, update_self]
      exact torn_fin_ne (hblank.mono le_rfl hfl) hlen (Nat.lt_of_not_le hj)
    rw [←hself] at hvalid hle hc
    exact ⟨s, select_against_torn hvalid hle hc hother, .inl rfl⟩

/-- Every power cut inside `otaab_upgrade_end` leaves the running slot or the
finished upgrade, unless an initial image in slot `b` is running. -/
theorem otaabUpgradeEnd_atomic_iff {s : Slot} {imgVersion : Option (List UInt8)} {ret : ℤ}
    (h : Reachable env k st) (hs : (bootabGetCurrentAb env st).1 = some s)
    (hu : otaabUpgradeEnd env st imgVersion = some (ret, next)) :
    ∃ ops, next.dev.trace = st.dev.trace ++ ops ∧ next.dev.mem = applyAll st.dev.mem ops ∧
      ((∀ n b, PowerUpOk env (cutImage st.dev.mem ops n b) s) ↔
        s = .a ∨ (readFlag env st s).2.activeVer ≠ eraseFlag) := by
  have hcur := current_of_get hs
  have hkept := h.sound.kept s hcur
  have hle := (h.sound.words s).ver_le
  obtain ⟨f, hlen, -, -, hrb, hfin, hview, hret⟩ := otaabUpgradeEnd_eq hcur imgVersion
  rw [hu] at hret
  cases hret
  refine ⟨[.erase (env.addr+getEnvabOffset env s.other) env.sectorSize,
    .write (env.addr+getEnvabOffset env s.other+bcSize) (encodeFlag f)],
    by simp only [writeSlot, eraseSlot, append_assoc, cons_append, nil_append],
    rfl, ?_⟩
  simp only [powerUpOk_iff, readFlag_activeVer]
  constructor
  · intro hall
    by_contra hc
    obtain ⟨x, hx, hok⟩ := hall 1 0
    have himage : cutImage st.dev.mem [.erase (env.addr+getEnvabOffset env s.other) env.sectorSize,
        .write (env.addr+getEnvabOffset env s.other+bcSize) (encodeFlag f)] 1 0 =
        (eraseSlot env s.other st.dev).mem := program_nil _ _
    have hself : view env (eraseSlot env s.other st.dev).mem s = view env st.dev.mem s := by
      rw [view_eraseSlot, update_of_ne s.other_ne.symm]
    have hother : view env (eraseSlot env s.other st.dev).mem s.other = .erased := by
      rw [view_eraseSlot, update_self]
    have hlost : select (view env (eraseSlot env s.other st.dev).mem) ≠ some s := by
      rw [Ne, select_against_erased (hself ▸ hkept.valid) (hself ▸ hle)
        (congrArg Words.ver hother), hself]
      exact hc
    rw [himage] at hx hok
    rcases s.eq_or_other x with rfl|rfl
    · exact hlost hx
    · rcases hok with he|hup
      · exact s.other_ne he
      · rw [hother] at hup
        exact absurd hup.1 (by decide)
  · intro hc n b
    rcases cutImage_erase_write st.dev.mem (env.addr+getEnvabOffset env s.other) env.sectorSize
      (env.addr+getEnvabOffset env s.other+bcSize) (encodeFlag f) n b with hcut|⟨j, hcut⟩
    · rw [hcut]
      rcases hkept.selected with hsel|hup|⟨hb, hver⟩
      · exact ⟨s, hsel, .inl rfl⟩
      · exact bootable_of_upgraded hkept.valid hup
      · rcases hc with ha|hne
        · rw [ha] at hb
          cases hb
        · exact absurd hver hne
    · rw [hcut]
      exact bootable_cut hkept.valid hle hc hlen hrb hfin hview

/-- The first upgrade of a device is atomic. -/
theorem otaabUpgradeEnd_atomic_small : ∃ next ops,
    otaabUpgradeEnd smallEnv freshState none = some (0, next) ∧ next.dev.trace = ops ∧
      ∀ n b, PowerUpOk smallEnv (cutImage freshState.dev.mem ops n b) .a := by
  have hcur : (bootabGetCurrentAb smallEnv freshState).1 = some .a := by decide +kernel
  obtain ⟨f, -, -, -, -, -, -, hret⟩ := otaabUpgradeEnd_eq (current_of_get hcur) none
  obtain ⟨ops, htrace, -, hiff⟩ := otaabUpgradeEnd_atomic_iff reachable_fresh hcur hret
  exact ⟨_, ops, hret, htrace, hiff.mpr (.inl rfl)⟩

/-- An upgrade from the slot that runs after a fallback is cut right after the
erase: the erased slot is started, without a finish word. -/
theorem otaabUpgradeEnd_not_atomic : ∃ k st next ops,
    run smallEnv fallbackActs (0, freshState) = some (k, st) ∧ Reachable smallEnv k st ∧
      (bootabGetCurrentAb smallEnv st).1 = some .b ∧
      otaabUpgradeEnd smallEnv st none = some (0, next) ∧
      next.dev.trace = st.dev.trace ++ ops ∧
      (bootabGetCurrentAb smallEnv (powerUp (cutImage st.dev.mem ops 1 0))).1 = some .a ∧
      (readFlag smallEnv (powerUp (cutImage st.dev.mem ops 1 0)) .a).2.finish ≠ finishFlag := by
  obtain ⟨⟨k, st⟩, hst, hcur, ⟨ret, next⟩, hret, hzero, htrace, hsel, hfin⟩ :
      ∃ r, run smallEnv fallbackActs (0, freshState) = some r ∧
        (bootabGetCurrentAb smallEnv r.2).1 = some .b ∧
        ∃ u, otaabUpgradeEnd smallEnv r.2 none = some u ∧
          let ops := u.2.dev.trace.drop r.2.dev.trace.length
          let image := powerUp (cutImage r.2.dev.mem ops 1 0)
          u.1 = 0 ∧ u.2.dev.trace = r.2.dev.trace ++ ops ∧
            (bootabGetCurrentAb smallEnv image).1 = some .a ∧
            (readFlag smallEnv image .a).2.finish ≠ finishFlag := by
    decide +kernel
  cases hzero
  exact ⟨k, st, next, _, hst, reachable_fresh.run hst, hcur, hret, htrace, hsel, hfin⟩

end PineVoice.Bootab
