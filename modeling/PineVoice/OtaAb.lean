import PineVoice.Bootab

/-!
# Upgrading, confirming and booting

`otaab_upgrade_end` makes the slot that is not running the valid one, `otaab_finish` confirms the
running slot and clears the flags of the other. Where no slot is current the code compares a null
pointer and the model returns nothing.
-/

namespace PineVoice.Bootab

open NorFlash Partitions

section Calls

variable (env : EnvPartition) (st : BootState)

/-- `otaab_upgrade_end`. -/
def otaabUpgradeEnd (imgVersion : Option (List UInt8)) : Option (ℤ × BootState) :=
  match bootabGetCurrentAb env st with
  | (none, _) => none
  | (some ab, st) =>
    let c := bootabClearFlags env st ab.other
    if c.1 < 0 then some (-1, c.2)
    else
      let e := bootabSetFallbackEnable env c.2 ab.other
      if e.1 ≠ 0 then some (-1, e.2)
      else
        let v := bootabSetValid env e.2 ab.other imgVersion
        if v.1 ≠ 0 then some (-1, v.2) else some (0, v.2)

/-- `otaab_finish`, with whether it came to its end without an error. -/
def otaabFinish (abFallback : ℤ) : Option (Bool × BootState) :=
  match bootabGetCurrentAb env st with
  | (none, _) => none
  | (some ab, st) =>
    let c := bootabClearFlags env st ab.other
    if c.1 ≠ 0 then some (false, c.2)
    else
      let r := if abFallback = 1 then bootabSetFallbackEnable env c.2 ab
        else bootabSetFallbackDisable env c.2 ab
      some (r.1 = 0, r.2)

end Calls

/-- A reset clears the RAM. -/
def restart (st : BootState) : BootState := { st with curSlot := none }

/-- A boot: the loader selects a slot and runs the fallback step on it, then
the image that it starts selects the slot it runs from. -/
def boot (env : EnvPartition) (st : BootState) (reason : BootReason) : BootState :=
  let r := bootabGetCurrentAb env (restart st)
  let st := match r.1 with
    | some ab => (bootabFallback env r.2 ab reason).2
    | none => r.2
  (bootabGetCurrentAb env (restart st)).2

/-- What can happen to a device. -/
inductive Action where
  /-- A boot. -/
  | boot (reason : BootReason)
  /-- A reset and `bootab_init`. -/
  | init (kernelNone : Bool)
  /-- `otaab_finish`. -/
  | finish (abFallback : ℤ)
  /-- `otaab_upgrade_end`. -/
  | upgradeEnd (imgVersion : Option (List UInt8))

/-- One action, with the number of upgrades it completed. -/
def step (env : EnvPartition) (st : BootState) : Action → Option (ℕ × BootState)
  | .boot reason => some (0, boot env st reason)
  | .init kernelNone => some (0, (bootabInit env (restart st) kernelNone).2)
  | .finish abFallback => (otaabFinish env st abFallback).map fun r => (0, r.2)
  | .upgradeEnd imgVersion =>
    (otaabUpgradeEnd env st imgVersion).map fun r => (if r.1 = 0 then 1 else 0, r.2)

/-- The states that can be reached from an erased env partition, with the number
of upgrades completed on the way. -/
inductive Reachable (env : EnvPartition) : ℕ → BootState → Prop
  /-- Nothing was ever written. -/
  | erased {dev : Nor} (h : Blank dev.mem env.addr (env.addr+env.length)) :
    Reachable env 0 ⟨dev, none⟩
  /-- One more action. -/
  | step {k n : ℕ} {st next : BootState} {act : Action} (h : Reachable env k st)
    (hs : step env st act = some (n, next)) : Reachable env (k+n) next

/-- A list of actions. -/
def run (env : EnvPartition) : List Action → ℕ × BootState → Option (ℕ × BootState)
  | [], r => some r
  | act :: acts, (k, st) =>
    (step env st act).bind fun (n, next) => run env acts (k+n, next)

theorem Reachable.run {env : EnvPartition} {acts : List Action} {k n : ℕ}
    {st next : BootState} (h : Reachable env k st) (hr : run env acts (k, st) = some (n, next)) :
    Reachable env n next := by
  induction acts generalizing k st with
  | nil =>
    cases hr
    exact h
  | cons act acts ih =>
    obtain ⟨⟨i, mid⟩, hs, hrest⟩ := Option.bind_eq_some_iff.mp hr
    exact ih (h.step hs) hrest

end PineVoice.Bootab
