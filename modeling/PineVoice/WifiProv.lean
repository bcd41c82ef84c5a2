import PineVoice.Transition
import Mathlib.Tactic

/-!
# Wi-Fi provisioning

The calls of `wifi_prov_start` and `wifi_prov_stop` and the tasks that a result or the timer creates
are parties that take their steps in any order. If a party begins only while no other one is going
on, the user callback gets one final event for a start; two results that are reported together are
both passed on.
-/

namespace PineVoice.WifiProv

open Transition

/-- A party, at the point where it goes on. -/
inductive Party where
  /-- `wifi_prov_start` is called. -/
  | start (methodId : UInt32) (cb timeoutS : ℕ)
  /-- Its checks are passed. -/
  | startCb (methodId : UInt32) (cb : ℕ)
  /-- It goes through the methods. -/
  | startMethods (methodId : UInt32) (left : List UInt32)
  /-- `wifi_prov_stop` is called. -/
  | stop
  /-- Something is started. -/
  | stopCheck
  /-- There is a callback. -/
  | stopCall
  /-- The callback is removed next. -/
  | stopCb
  /-- `_stop_method` is next. -/
  | stopMethod
  /-- It is done. -/
  | stopClear
  /-- `result_task` starts. -/
  | task
  /-- The timer is stopped. -/
  | taskMethod
  /-- `_stop_method` is done. -/
  | taskClear
  /-- Nothing is started. -/
  | taskCheck
  /-- There is a callback. -/
  | taskCall
  deriving DecidableEq

/-- The state. The lock is left out. -/
structure Prov where
  /-- `g_prov_list`. -/
  methods : List UInt32
  /-- `g_wiri_prov_cb`. -/
  cb : Option ℕ
  /-- The timer is running. -/
  timer : Bool
  /-- `g_wifi_prov_started_method`. -/
  started : UInt32
  /-- What is going on. -/
  parties : List Party
  /-- The final events since the callback was set. -/
  finals : ℕ

/-- The callback is invoked with a final event. -/
def Prov.final (s : Prov) : Prov := { s with finals := s.finals+if s.cb = none then 0 else 1 }

/-- A party goes on; `ok` says if a method can be started. -/
def Party.next (s : Prov) (ok : Bool) : Party → Prov × Option Party
  | .start methodId cb timeoutS =>
    (s, if s.started &&& methodId ≠ 0 ∨ timeoutS ≤ 0 then none else some (.startCb methodId cb))
  | .startCb methodId cb =>
    ({ s with cb := some cb, finals := 0 }, some (.startMethods methodId s.methods))
  | .startMethods _ [] => ({ s with timer := s.timer || s.started ≠ 0 }, none)
  | .startMethods methodId (m :: left) =>
    if m &&& methodId ≠ 0 then
      ({ s with started := if ok then s.started ||| m else s.started },
        some (.startMethods (methodId &&& ~~~m) left))
    else (s, some (.startMethods methodId left))
  | .stop => (s, if s.started = 0 then none else some .stopCheck)
  | .stopCheck => (s, some (if s.cb = none then .stopCb else .stopCall))
  | .stopCall => (s.final, some .stopCb)
  | .stopCb => ({ s with cb := none }, some .stopMethod)
  | .stopMethod => ({ s with started := 0 }, some .stopClear)
  | .stopClear => ({ s with started := 0 }, none)
  | .task => ({ s with timer := false }, some .taskMethod)
  | .taskMethod => ({ s with started := 0 }, some .taskClear)
  | .taskClear => ({ s with started := 0 }, some .taskCheck)
  | .taskCheck => (s, if s.cb = none then none else some .taskCall)
  | .taskCall => (s.final, none)

/-- What happens next. -/
inductive Act where
  | start (methodId : UInt32) (cb timeoutS : ℕ)
  | stop
  /-- A method reports its result to `wifi_prov_callback`. -/
  | report
  /-- The timer expires: `prov_timer_entry`. -/
  | expire
  /-- A party goes on. -/
  | run (i : ℕ) (ok : Bool)

/-- A party begins. -/
def Prov.begin (s : Prov) (p : Party) : Prov := { s with parties := s.parties ++ [p] }

/-- One step. -/
def step (s : Prov) : Act → Option Prov
  | .start methodId cb timeoutS => some (s.begin (.start methodId cb timeoutS))
  | .stop => some (s.begin .stop)
  | .report => some (if s.started ≠ 0 then s.begin .task else s)
  | .expire => if s.timer then some ({ s with timer := false }.begin .task) else none
  | .run i ok => s.parties[i]?.map fun p =>
    let (s', q) := p.next s ok
    { s' with parties := s.parties.take i ++ (q.toList ++ s.parties.drop (i+1)) }

/-- The parties do not overlap. -/
def Alone (s : Prov) : Act → Prop
  | .run _ _ => True
  | .report => s.started ≠ 0 → s.parties = []
  | _ => s.parties = []

instance (s : Prov) : (a : Act) → Decidable (Alone s a)
  | .run _ _ => isTrue trivial
  | .report => inferInstanceAs (Decidable (s.started ≠ 0 → s.parties = []))
  | .start .. | .stop | .expire => inferInstanceAs (Decidable (s.parties = []))

/-- There was no final event, unless it is too late for another. -/
def Done (s : Prov) : Prop :=
  s.finals ≤ 1 ∧ (s.finals = 1 → s.cb = none ∨ s.started = 0 ∧ s.timer = false)

/-- There was no final event, unless the callback is removed. -/
def Open (s : Prov) : Prop := s.finals ≤ 1 ∧ (s.finals = 1 → s.cb = none)

/-- What holds at the points of a party that is alone. -/
def Party.Fits (s : Prov) : Party → Prop
  | .start .. | .startCb .. | .stop => Done s
  | .startMethods .. => s.finals = 0
  | .stopCheck | .stopCall | .task => Open s
  | .stopCb => s.finals ≤ 1
  | .stopMethod | .stopClear => s.finals ≤ 1 ∧ s.cb = none
  | .taskMethod => Open s ∧ s.timer = false
  | .taskClear | .taskCheck | .taskCall => Open s ∧ s.timer = false ∧ s.started = 0

/-- The invariant of runs without overlaps. -/
def Sound (s : Prov) : Prop :=
  s.parties = [] ∧ Done s ∨ ∃ p, s.parties = [p] ∧ p.Fits s

variable {s s' : Prov}

/-- At every point there was at most one final event. -/
theorem Sound.finals (h : Sound s) : s.finals ≤ 1 := by
  rcases h with ⟨-, hdone⟩ | ⟨p, -, hp⟩
  · exact hdone.1
  · cases p with
    | start | startCb | stop | stopCheck | stopCall | task | stopMethod | stopClear => exact hp.1
    | startMethods => exact hp.trans_le zero_le_one
    | stopCb => exact hp
    | taskMethod | taskClear | taskCheck | taskCall => exact hp.1.1

/-- One more final event is the first one. -/
theorem Open.final (h : Open s) : s.final.finals ≤ 1 := by
  obtain ⟨hle, hcb⟩ := h
  by_cases hnone : s.cb = none
  · simpa [Prov.final, hnone] using hle
  · have h1 : s.finals ≠ 1 := fun h1 => hnone (hcb h1)
    simp only [Prov.final, hnone, if_false]
    omega

/-- What a party leaves for its next point, or for others. -/
theorem Party.Fits.next {p : Party} (h : p.Fits s) (ok : Bool) :
    Option.elim (p.next s ok).2 (Done (p.next s ok).1) fun q => q.Fits (p.next s ok).1 := by
  cases p with
  | start methodId cb timeoutS =>
    simp only [Party.next]
    split <;> exact h
  | startCb methodId cb => rfl
  | startMethods methodId left =>
    cases left with
    | nil => exact ⟨h.trans_le zero_le_one, fun h1 => absurd (h.symm.trans h1) zero_ne_one⟩
    | cons m left =>
      simp only [Party.next]
      split <;> exact h
  | stop =>
    simp only [Party.next]
    split
    next => exact h
    next hne => exact ⟨h.1, fun h1 => (h.2 h1).resolve_right fun h0 => hne h0.1⟩
  | stopCheck =>
    simp only [Party.next]
    split
    · exact h.1
    · exact h
  | stopCall => exact Open.final h
  | stopCb => exact ⟨h, rfl⟩
  | stopMethod => exact h
  | stopClear => exact ⟨h.1, fun _ => .inl h.2⟩
  | task => exact ⟨h, rfl⟩
  | taskMethod => exact ⟨h.1, h.2, rfl⟩
  | taskClear => exact ⟨h.1, h.2.1, rfl⟩
  | taskCheck =>
    simp only [Party.next]
    split
    next hnone => exact ⟨h.1.1, fun _ => .inl hnone⟩
    next => exact h
  | taskCall => exact ⟨h.1.final, fun _ => .inr ⟨h.2.2, h.2.1⟩⟩

theorem Sound.done (h : Sound s) (hnone : s.parties = []) : Done s := by
  rcases h with ⟨-, hdone⟩ | ⟨p, hp, -⟩
  · exact hdone
  · rw [hnone] at hp
    cases hp

theorem Party.fits_parties (p : Party) (ps : List Party) :
    p.Fits { s with parties := ps } ↔ p.Fits s := by
  cases p <;> rfl

/-- A party begins alone. -/
theorem Sound.begin {p : Party} (hnone : s.parties = []) (hp : p.Fits s) : Sound (s.begin p) :=
  .inr ⟨p, by rw [Prov.begin, hnone]; rfl, (p.fits_parties _).mpr hp⟩

theorem step_keeps (a : Act) (ha : Alone s a) (h : Sound s) (hstep : step s a = some s') :
    Sound s' := by
  cases a with
  | start methodId cb timeoutS =>
    cases hstep
    exact .begin ha (h.done ha)
  | stop =>
    cases hstep
    exact .begin ha (h.done ha)
  | report =>
    simp only [step] at hstep
    split at hstep <;> cases hstep
    next hne =>
      have hdone := h.done (ha hne)
      exact .begin (ha hne) ⟨hdone.1, fun h1 => (hdone.2 h1).resolve_right fun h0 => hne h0.1⟩
    next => exact h
  | expire =>
    simp only [step] at hstep
    split at hstep <;> cases hstep
    next htimer =>
      have hdone := h.done ha
      refine .begin ha ⟨hdone.1, fun h1 => (hdone.2 h1).resolve_right fun h0 => ?_⟩
      simp [htimer] at h0
  | run i ok =>
    obtain ⟨p, hp, rfl⟩ := Option.map_eq_some_iff.mp hstep
    rcases h with ⟨hnone, -⟩ | ⟨q, hq, hfits⟩
    · simp [hnone] at hp
    · obtain ⟨rfl, rfl⟩ : i = 0 ∧ q = p := by
        simpa [hq, List.getElem?_singleton] using hp
      have hnext := hfits.next ok
      cases hpoint : (q.next s ok).2 with
      | none =>
        rw [hpoint] at hnext
        exact .inl ⟨by simp [hq, hpoint], hnext⟩
      | some r =>
        rw [hpoint] at hnext
        exact .inr ⟨r, by simp [hq, hpoint], (r.fits_parties _).mpr hnext⟩

/-- If no party begins while another one is going on, there is at most one final event for a
start. -/
theorem provisioning_ends_once (methods : List UInt32) (acts : List Act)
    (h : Along step Alone ⟨methods, none, false, 0, [], 0⟩ acts) {s : Prov}
    (hrun : run step ⟨methods, none, false, 0, [], 0⟩ acts = some s) : s.finals ≤ 1 := by
  have hsound := run_keeps (P := Sound) (fun _ a _ ha hs => step_keeps a ha hs) h
    (.inl ⟨rfl, Nat.zero_le 1, fun h1 => absurd h1 zero_ne_one⟩) hrun
  exact hsound.finals

/-- A start of one method. -/
def startRun : List Act := .start 1 7 60 :: List.replicate 4 (.run 0 true)

/-- A result is passed on. -/
def passRun : List Act := List.replicate 5 (.run 0 true)

theorem provisioning_ends_once_sample :
    ∃ s, run step ⟨[1], none, false, 0, [], 0⟩ (startRun ++ .report :: passRun) = some s ∧
      s.finals ≤ 1 :=
  ⟨_, rfl, provisioning_ends_once [1] (startRun ++ .report :: passRun) (by decide) rfl⟩

/-- Two results are reported before the first one is passed on. -/
theorem provisioning_ends_twice :
    (run step ⟨[1], none, false, 0, [], 0⟩
      (startRun ++ .report :: .report :: (passRun ++ passRun))).map Prov.finals = some 2 := rfl

end PineVoice.WifiProv
