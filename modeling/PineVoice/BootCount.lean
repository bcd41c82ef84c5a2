import PineVoice.BootSteps
import PineVoice.Transition

/-!
# Boots that were confirmed

The boot counter is a row of words of which each counted reset programs the
next one. `otaab_finish` erases the flags of the other slot only, so the
counter of a healthy slot goes up with every soft or watchdog reset until the
limit is reached.
-/

namespace PineVoice.Bootab

open NorFlash Partitions

variable {env : EnvPartition} {st : BootState}

/-- The first words of the counter are programmed, the others are erased. -/
def Counted (m : Mem) (p : ℕ) : Prop := ∀ j, j < 30 → (le32 m (4*j) ≠ eraseFlag ↔ j < p)

theorem countWords_counted {m : Mem} {p : ℕ} (h : Counted m p) (n i cnt : ℕ) :
    countWords m n i cnt = cnt+(min p (min 30 (i+n))-i) := by
  induction n generalizing i cnt with
  | zero =>
    rw [countWords]
    omega
  | succ n ih =>
    rw [countWords, ih]
    split_ifs with hw
    · have hip := (h i hw.2).mp hw.1
      omega
    · have hip : 30 ≤ i ∨ p ≤ i := by
        by_contra hlt
        exact hw ⟨(h i (by omega)).mpr (by omega), by omega⟩
      omega

theorem Counted.bootCount_eq {m : Mem} {p : ℕ} (h : Counted m p) (hp : p ≤ 30) :
    bootCount m = p := by
  rw [bootCount, countWords_counted h]
  omega

theorem le_countWords (m : Mem) (n i cnt : ℕ) : cnt ≤ countWords m n i cnt := by
  induction n generalizing i cnt with
  | zero => exact le_rfl
  | succ n ih =>
    refine le_trans ?_ (ih (i+1) _)
    split_ifs
    · exact Nat.le_succ cnt
    · exact le_rfl

/-- Where nothing is counted every word is erased. -/
theorem countWords_eq_self {m : Mem} {n i cnt : ℕ} (h : countWords m n i cnt = cnt) {j : ℕ}
    (hi : i ≤ j) (hj : j < i+n) (h30 : j < 30) : le32 m (4*j) = eraseFlag := by
  induction n generalizing i with
  | zero => omega
  | succ n ih =>
    rw [countWords] at h
    split_ifs at h with hw
    · have hle := le_countWords m n (i+1) (cnt+1)
      omega
    · rcases eq_or_lt_of_le hi with rfl|hlt
      · by_contra hne
        exact hw ⟨hne, h30⟩
      · exact ih h hlt (by omega)

theorem counted_zero {m : Mem} (h : bootCount m = 0) : Counted m 0 := fun j hj =>
  ⟨fun hne => absurd (countWords_eq_self h (Nat.zero_le j) (by omega) hj) hne,
    fun hlt => absurd hlt (Nat.not_lt_zero j)⟩

theorem counted_blank {m : Mem} (h : Blank m 0 bcSize) : Counted m 0 := fun j hj =>
  ⟨fun hne => absurd (le32_blank h (Nat.zero_le _) (by rw [bcSize]; omega)) hne,
    fun hlt => absurd hlt (Nat.not_lt_zero j)⟩

/-- The counter is all that is read. -/
theorem Counted.congr {m m' : Mem} {p : ℕ} (h : Counted m p) (ha : Agree m' m 0 bcSize) :
    Counted m' p := fun j hj => by
  rw [le32_congr (ha.mono (Nat.zero_le _) (by rw [bcSize]; omega))]
  exact h j hj

/-- Programming the next word counts one more. -/
theorem Counted.next {m : Mem} {p : ℕ} (h : Counted m p) :
    Counted (program m (4*p) (leBytes 0)) (p+1) := by
  intro j hj
  rcases eq_or_ne j p with rfl|hne
  · have hzero : le32 (program m (4*j) (leBytes 0)) (4*j) = 0 :=
      le32_eq_zero.mpr (holds_program_zeros m (4*j))
    rw [hzero]
    exact ⟨fun _ => Nat.lt_succ_self j, fun _ => by decide⟩
  · have hsame : le32 (program m (4*p) (leBytes 0)) (4*j) = le32 m (4*j) :=
      le32_congr (agree_program (by rw [leBytes_length]; omega))
    rw [hsame, h j hj]
    omega

/-- A boot of a slot in which the fallback step returned no other one and the
image then completed `otaab_finish` with rollback enabled. -/
def healthyBoot (env : EnvPartition) (s : Slot) (reason : BootReason) (st : BootState) :
    Option BootState :=
  match bootabGetCurrentAb env (restart st) with
  | (some x, st) =>
    if x = s then
      match bootabFallback env st s reason with
      | (none, st) =>
        match otaabFinish env (restart st) 1 with
        | some (true, st) => some st
        | _ => none
      | _ => none
    else none
  | _ => none

/-- A sequence of such boots. -/
def healthyBoots (env : EnvPartition) (s : Slot) : List BootReason → BootState → Option BootState
  | [], st => some st
  | reason :: reasons, st => (healthyBoot env s reason st).bind (healthyBoots env s reasons)

theorem healthyBoot_cases {s : Slot} {reason : BootReason} {next : BootState}
    (h : healthyBoot env s reason st = some next) : ∃ booted counted,
      bootabGetCurrentAb env (restart st) = (some s, booted) ∧
      bootabFallback env booted s reason = (none, counted) ∧
      otaabFinish env (restart counted) 1 = some (true, next) := by
  unfold healthyBoot at h
  split at h
  · next x booted hcur =>
    split at h
    · next hx =>
      split at h
      · next counted hfall =>
        split at h
        · next fin hfin =>
          cases h
          exact ⟨booted, counted, hx ▸ hcur, hfall, hfin⟩
        · cases h
      · cases h
    · cases h
  · cases h

/-- A slot that can be booted, with rollback enabled and some counted boots. -/
structure Healthy (env : EnvPartition) (s : Slot) (p : ℕ) (st : BootState) : Prop where
  /-- The slot can be booted. -/
  valid : (view env st.dev.mem s).Valid
  /-- Rollback is enabled. -/
  enabled : (view env st.dev.mem s).rb = rollbackEnFlag
  /-- Its boot counter. -/
  counted : Counted (sector env st.dev.mem s) p
  /-- The counter has not passed the limit. -/
  le_limit : p ≤ bootLimit

variable {s : Slot} {p : ℕ}

section

variable (h : Healthy env s p st)
include h

theorem Healthy.bootCount_eq : bootCount (sector env st.dev.mem s) = p :=
  h.counted.bootCount_eq (h.le_limit.trans (by decide))

/-- The fallback step on a healthy slot depends on the boot count alone. -/
theorem Healthy.fallback_eq (reason : BootReason) :
    bootabFallback env st s reason = if bootLimit ≤ p then
      (some s.other, { st with dev := writeSlot env s st.dev bcSize (leBytes 0) })
    else (none, countBoot env st s reason) := by
  rw [bootabFallback_eq, if_pos h.enabled, h.bootCount_eq]

/-- Counting a boot below the limit. -/
theorem Healthy.countBoot (hp : p < bootLimit) (reason : BootReason) :
    Healthy env s (p+if reason.counts then 1 else 0) (countBoot env st s reason) := by
  have hview : view env (Bootab.countBoot env st s reason).dev.mem = view env st.dev.mem :=
    view_countBoot (h.bootCount_eq.trans_lt hp)
  refine ⟨by rw [hview]; exact h.valid, by rw [hview]; exact h.enabled, ?_, ?_⟩
  · rw [Bootab.countBoot]
    split_ifs
    · dsimp only [writeSlot]
      rw [sector_program, h.bootCount_eq]
      exact h.counted.next
    · exact h.counted
  · split_ifs
    · exact hp
    · exact hp.le

/-- Confirming a healthy slot only erases the other sector. -/
theorem Healthy.finish (hsel : select (view env st.dev.mem) = some s) :
    ∃ next, otaabFinish env (restart st) 1 = some (true, next) ∧ Healthy env s p next := by
  have hsame : view env (eraseSlot env s.other st.dev).mem s = view env st.dev.mem s := by
    rw [view_eraseSlot, Function.update_of_ne s.other_ne.symm]
  refine ⟨⟨eraseSlot env s.other st.dev, some s⟩, ?_, ?_, ?_, ?_, h.le_limit⟩
  · simp [otaabFinish, bootabGetCurrentAb_restart, hsel, bootabClearFlags_eq,
      bootabSetFallbackEnable_eq, hsame, h.enabled]
  · rw [hsame]
    exact h.valid
  · rw [hsame]
    exact h.enabled
  · have hap := getEnvabOffset_apart env s
    have hfl := env.flags_le
    exact h.counted.congr fun i _ hi => erase_outside (by omega)

/-- A confirmed boot keeps the slot healthy. -/
theorem Healthy.boot {reason : BootReason} {next : BootState}
    (hboot : healthyBoot env s reason st = some next) :
    Healthy env s (p+if reason.counts then 1 else 0) next := by
  obtain ⟨booted, counted, hcur, hfall, hfin⟩ := healthyBoot_cases hboot
  rw [bootabGetCurrentAb_restart, Prod.mk.injEq] at hcur
  obtain ⟨hsel, rfl⟩ := hcur
  have hbooted : Healthy env s p { st with curSlot := select (view env st.dev.mem) } :=
    ⟨h.valid, h.enabled, h.counted, h.le_limit⟩
  rw [hbooted.fallback_eq] at hfall
  by_cases hlim : bootLimit ≤ p
  · rw [if_pos hlim] at hfall
    cases hfall
  · rw [if_neg hlim] at hfall
    obtain ⟨-, rfl⟩ := hfall
    have hp := Nat.lt_of_not_le hlim
    have hview : view env (Bootab.countBoot env
        { st with curSlot := select (view env st.dev.mem) } s reason).dev.mem =
        view env st.dev.mem := view_countBoot (hbooted.bootCount_eq.trans_lt hp)
    obtain ⟨last, hlast, hhealthy⟩ :=
      (hbooted.countBoot hp reason).finish ((congrArg select hview).trans hsel)
    rw [hfin] at hlast
    cases hlast
    exact hhealthy

/-- Through confirmed boots the slot stays healthy and its counter counts. -/
theorem Healthy.boots {reasons : List BootReason} {next : BootState}
    (hrun : healthyBoots env s reasons st = some next) :
    Healthy env s (p+(reasons.filter BootReason.counts).length) next := by
  induction reasons generalizing st p with
  | nil =>
    cases hrun
    exact h
  | cons reason reasons ih =>
    obtain ⟨mid, hboot, hrest⟩ := Option.bind_eq_some_iff.mp hrun
    have hlast := ih (h.boot hboot) hrest
    rw [List.filter_cons]
    cases hc : reason.counts with
    | true =>
      rw [hc, if_pos rfl, add_assoc, add_comm 1] at hlast
      exact hlast
    | false =>
      rw [hc] at hlast
      exact hlast

end

/-- After confirmed boots the next fallback step keeps the slot exactly if fewer
of them than the limit were soft or watchdog resets. -/
theorem bootabFallback_healthy_iff {st next : BootState} {s : Slot} {reasons : List BootReason}
    (reason : BootReason) (hsel : (bootabGetCurrentAb env (restart st)).1 = some s)
    (hrb : bootabGetFallbackIsEnable env st s = true) (hcnt : bootabGetBootcount env st s = 0)
    (hrun : healthyBoots env s reasons st = some next) :
    ((bootabFallback env (restart next) s reason).1 = none ∧
      checkAbValid (readFlag env (bootabFallback env (restart next) s reason).2 s).2 = true) ↔
    (reasons.filter BootReason.counts).length < bootLimit := by
  rw [bootabGetCurrentAb_restart] at hsel
  rw [bootabGetFallbackIsEnable, readFlag_rbFlag, decide_eq_true_iff] at hrb
  rw [bootabGetBootcount_eq, Nat.cast_eq_zero] at hcnt
  have hstart : Healthy env s 0 st :=
    ⟨(select_eq_some_iff.mp hsel).1, hrb, counted_zero hcnt, Nat.zero_le _⟩
  have hend := hstart.boots hrun
  rw [zero_add] at hend
  have hlast : Healthy env s (reasons.filter BootReason.counts).length (restart next) :=
    ⟨hend.valid, hend.enabled, hend.counted, hend.le_limit⟩
  rw [hlast.fallback_eq]
  by_cases hlim : bootLimit ≤ (reasons.filter BootReason.counts).length
  · rw [if_pos hlim]
    exact ⟨fun h => absurd h.1 (Option.some_ne_none _),
      fun h => absurd hlim (Nat.not_le_of_lt h)⟩
  · rw [if_neg hlim]
    have hp := Nat.lt_of_not_le hlim
    exact ⟨fun _ => hp, fun _ => ⟨rfl, checkAbValid_readFlag.mpr (hlast.countBoot hp reason).valid⟩⟩

/-- An env partition with short sectors. -/
def smallEnv : EnvPartition where
  description := [101, 110, 118, 97, 98]
  baseAddr := 0
  startAddr := 0
  length := 1536
  sectorSize := 256
  sector_pos := by decide
  sector_le := by decide
  addr_lt := by decide
  flags_le := by decide
  length_ge := by decide

/-- A device that was never written. -/
def freshState : BootState := ⟨⟨fun _ => 0xFF, []⟩, none⟩

/-- The device after its first upgrade. -/
def upgradedState : BootState := ((otaabUpgradeEnd smallEnv freshState none).getD (0, freshState)).2

theorem upgradedState_ready :
    (bootabGetCurrentAb smallEnv (restart upgradedState)).1 = some .b ∧
      bootabGetFallbackIsEnable smallEnv upgradedState .b = true ∧
      bootabGetBootcount smallEnv upgradedState .b = 0 := by
  decide +kernel

/-- Two soft resets among four confirmed boots are below the limit. -/
theorem bootabFallback_healthy_small : ∃ next,
    healthyBoots smallEnv .b [.soft, .power, .wdt, .other] upgradedState = some next ∧
      (bootabFallback smallEnv (restart next) .b .soft).1 = none := by
  have hrun : (healthyBoots smallEnv .b [.soft, .power, .wdt, .other] upgradedState).isSome := by
    decide +kernel
  obtain ⟨next, hnext⟩ := Option.isSome_iff_exists.mp hrun
  obtain ⟨hsel, hrb, hcnt⟩ := upgradedState_ready
  exact ⟨next, hnext, ((bootabFallback_healthy_iff .soft hsel hrb hcnt hnext).mpr (by decide)).1⟩

/-- Five soft resets, each followed by a confirmation, and the sixth boot gives
up the slot. -/
theorem healthy_slot_given_up : ∃ next,
    (bootabGetCurrentAb smallEnv (restart upgradedState)).1 = some .b ∧
    bootabGetFallbackIsEnable smallEnv upgradedState .b = true ∧
    bootabGetBootcount smallEnv upgradedState .b = 0 ∧
    healthyBoots smallEnv .b (List.replicate 5 .soft) upgradedState = some next ∧
    (bootabFallback smallEnv (restart next) .b .soft).1 = some .a ∧
    checkAbValid (readFlag smallEnv (bootabFallback smallEnv (restart next) .b .soft).2 .b).2 =
      false := by
  obtain ⟨hsel, hrb, hcnt⟩ := upgradedState_ready
  simp only [exists_and_left]
  exact ⟨hsel, hrb, hcnt, by decide +kernel⟩

end PineVoice.Bootab
