import PineVoice.Bootab

/-!
# Two slots as an abstract machine

A slot is three words: its version, its rollback switch and its finish mark.
The machine says what boots, confirmations and upgrades may do to the words of
two slots and to the slot that is running. Every invariant of a whole run is
proved here, on the words alone.
-/

namespace PineVoice.Bootab

open Function

/-- The words of a slot that decide about it. -/
structure Words where
  /-- Version. -/
  ver : ℕ
  /-- Rollback switch. -/
  rb : ℕ
  /-- Finish mark. -/
  fin : ℕ

/-- The words of an erased sector. -/
def Words.erased : Words := ⟨eraseFlag, eraseFlag, eraseFlag⟩

/-- A slot that can be booted. -/
def Words.Valid (w : Words) : Prop := w.ver = eraseFlag ∨ (w.fin = finishFlag ∧ w.ver ≠ 0)

instance (w : Words) : Decidable w.Valid :=
  inferInstanceAs (Decidable (w.ver = eraseFlag ∨ (w.fin = finishFlag ∧ w.ver ≠ 0)))

/-- A slot written by a whole upgrade. -/
def Words.Upgraded (w : Words) : Prop := w.fin = finishFlag ∧ w.rb = rollbackEnFlag

/-- The slot is preferred to a valid other one. -/
def Precedes (v : Slot → Words) : Slot → Prop
  | .a => (v .a).ver ≤ (v .b).ver
  | .b => (v .b).ver < (v .a).ver

/-- The slot that is booted. -/
def select (v : Slot → Words) : Option Slot :=
  if (v .a).Valid ∧ ((v .b).Valid → (v .a).ver ≤ (v .b).ver) then some .a
  else if (v .b).Valid then some .b
  else none

theorem Slot.other_ne (ab : Slot) : ab.other ≠ ab := by
  cases ab <;> decide

@[simp] theorem Slot.other_other (ab : Slot) : ab.other.other = ab := by
  cases ab <;> rfl

theorem Slot.eq_or_other (ab x : Slot) : x = ab ∨ x = ab.other := by
  cases ab <;> cases x <;> decide

variable {v : Slot → Words} {s : Slot} {w : Words} {k n : ℕ}

theorem select_eq_some_iff :
    select v = some s ↔ (v s).Valid ∧ ((v s.other).Valid → Precedes v s) := by
  unfold select
  cases s with
  | a =>
    split_ifs with ha hb
    · exact ⟨fun _ => ha, fun _ => rfl⟩
    · constructor
      · intro h
        cases h
      · exact fun h => absurd h ha
    · constructor
      · intro h
        cases h
      · exact fun h => absurd h ha
  | b =>
    simp only [Precedes]
    split_ifs with ha hb
    · constructor
      · intro h
        cases h
      · intro h
        have hlt := h.2 ha.1
        have hle := ha.2 h.1
        omega
    · refine ⟨fun _ => ⟨hb, fun hva => ?_⟩, fun _ => rfl⟩
      by_contra hlt
      exact ha ⟨hva, fun _ => by omega⟩
    · constructor
      · intro h
        cases h
      · exact fun h => absurd h.1 hb

/-- A valid slot beats one that is not. -/
theorem select_of_not_valid (h : (v s).Valid) (hn : ¬(v s.other).Valid) : select v = some s :=
  select_eq_some_iff.mpr ⟨h, fun ho => absurd ho hn⟩

theorem Words.Valid.ver_ne_zero (h : w.Valid) : w.ver ≠ 0 := by
  rcases h with h|h
  · rw [h]
    decide
  · exact h.2

/-- Words and running slot. -/
structure AbState where
  /-- Words of the slots. -/
  view : Slot → Words
  /-- Slot remembered since the last reset. -/
  running : Option Slot

/-- The slot the calls work on. -/
def AbState.current (s : AbState) : Option Slot :=
  match s.running with
  | some x => some x
  | none => select s.view

/-- What may happen, with the number of upgrades completed. -/
inductive AbStep : ℕ → AbState → AbState → Prop
  /-- A reset after which the slot to boot is selected. -/
  | select {v : Slot → Words} {r : Option Slot} : AbStep 0 ⟨v, r⟩ ⟨v, select v⟩
  /-- A boot that gives up the selected slot. -/
  | fallback {v : Slot → Words} {r : Option Slot} {s : Slot}
    (hs : Bootab.select v = some s) (hrb : (v s).rb = rollbackEnFlag) :
    AbStep 0 ⟨v, r⟩ ⟨update v s { v s with ver := 0 },
      Bootab.select (update v s { v s with ver := 0 })⟩
  /-- Everything is erased where no slot can be booted. -/
  | wipe {v : Slot → Words} {r : Option Slot} (hs : Bootab.select v = none) :
    AbStep 0 ⟨v, r⟩ ⟨fun _ => .erased, none⟩
  /-- A confirmation erases the other slot. It may change the rollback word of
  the slot itself, but not that of an initial image. -/
  | finish {v : Slot → Words} {r : Option Slot} {s : Slot} {rb : ℕ}
    (hs : AbState.current ⟨v, r⟩ = some s)
    (hrb : rb = (v s).rb ∨ (v s).ver ≠ eraseFlag ∨ (v s).rb = rollbackEnFlag) :
    AbStep 0 ⟨v, r⟩
      ⟨update (update v s.other .erased) s { v s with rb := rb }, some s⟩
  /-- An upgrade of the other slot. -/
  | upgrade {v : Slot → Words} {r : Option Slot} {s : Slot}
    (hs : AbState.current ⟨v, r⟩ = some s) :
    AbStep 1 ⟨v, r⟩ ⟨update v s.other
      ⟨((v s).ver+2^32-1) % 2^32, rollbackEnFlag, finishFlag⟩, some s⟩

/-- What holds of the words of each slot after some upgrades. -/
structure Words.Sound (k : ℕ) (w : Words) : Prop where
  /-- The version is a word. -/
  ver_le : w.ver ≤ eraseFlag
  /-- Only an erased slot has no finish mark. -/
  finished : w.ver = eraseFlag ∨ w.fin = finishFlag
  /-- Rollback is never enabled without the finish mark. -/
  rollback : w.rb = rollbackEnFlag → w.fin = finishFlag
  /-- Versions go down by one an upgrade. -/
  recent : w.ver ≠ 0 → eraseFlag ≤ w.ver+k

/-- What holds of a running slot: it can be booted, and either it is the one to
boot, or an upgrade is, or it is an initial image in slot `b`. -/
structure Kept (v : Slot → Words) (s : Slot) : Prop where
  /-- The running slot can be booted. -/
  valid : (v s).Valid
  /-- What the next reset selects. -/
  selected : select v = some s ∨ (v s.other).Upgraded ∨ (s = .b ∧ (v s).ver = eraseFlag)

/-- Invariant of the machine. -/
structure AbState.Sound (k : ℕ) (s : AbState) : Prop where
  /-- The words of both slots. -/
  words : ∀ x, (s.view x).Sound k
  /-- The running slot. -/
  kept : ∀ x, s.current = some x → Kept s.view x

theorem kept_of_select (h : select v = some s) : Kept v s :=
  ⟨(select_eq_some_iff.mp h).1, .inl h⟩

theorem Words.Sound.erased (k : ℕ) : Words.erased.Sound k where
  ver_le := le_rfl
  finished := .inl rfl
  rollback h := by cases h
  recent _ := Nat.le_add_right _ _

theorem Words.Sound.mono (h : w.Sound k) (hkn : k ≤ n) : w.Sound n where
  ver_le := h.ver_le
  finished := h.finished
  rollback := h.rollback
  recent hv := (h.recent hv).trans (Nat.add_le_add_left hkn _)

/-- A reset makes the selected slot the running one. -/
theorem AbState.Sound.select (h : ∀ x, (v x).Sound k) : AbState.Sound k ⟨v, Bootab.select v⟩ := by
  refine ⟨h, fun x hx => kept_of_select ?_⟩
  cases hv : Bootab.select v with
  | none => simp only [AbState.current, hv, reduceCtorEq] at hx
  | some y => simpa only [AbState.current, hv] using hx

theorem sound_update (h : ∀ x, (v x).Sound k) (hw : w.Sound k) (x : Slot) :
    (update v s w x).Sound k := by
  by_cases hx : x = s
  · rw [hx, update_self]
    exact hw
  · rw [update_of_ne hx]
    exact h x

/-- An erased version is valid and the largest one, so it loses against all
but an initial image in slot `b`. -/
theorem select_against_erased (hs : (v s).Valid) (hle : (v s).ver ≤ eraseFlag)
    (ho : (v s.other).ver = eraseFlag) : select v = some s ↔ s = .a ∨ (v s).ver ≠ eraseFlag := by
  have hv : (v s.other).Valid := .inl ho
  rw [select_eq_some_iff, and_iff_right hs, forall_prop_of_true hv]
  cases s with
  | a =>
    have hb : (v .b).ver = eraseFlag := ho
    simp [Precedes, hb, hle]
  | b =>
    have ha : (v .a).ver = eraseFlag := ho
    simp only [Precedes, reduceCtorEq, false_or]
    omega

/-- A slot without the finish mark loses in the same cases. -/
theorem select_against_torn (hs : (v s).Valid) (hle : (v s).ver ≤ eraseFlag)
    (hc : s = .a ∨ (v s).ver ≠ eraseFlag) (ho : (v s.other).fin ≠ finishFlag)
    : select v = some s := by
  by_cases hv : (v s.other).Valid
  · have hver : (v s.other).ver = eraseFlag := hv.resolve_right fun h => ho h.1
    exact (select_against_erased hs hle hver).mpr hc
  · exact select_of_not_valid hs hv

/-- The next reset selects this slot or an upgraded one. -/
def Bootable (v : Slot → Words) (s : Slot) : Prop :=
  ∃ x, select v = some x ∧ (x = s ∨ (v x).Upgraded)

/-- Where a slot can be booted, one is selected. -/
theorem select_of_valid (h : (v s).Valid) : select v = some s ∨ select v = some s.other := by
  by_cases hs : select v = some s
  · exact .inl hs
  · rw [select_eq_some_iff, not_and] at hs
    have hn := hs h
    push Not at hn
    refine .inr (select_eq_some_iff.mpr ⟨hn.1, fun _ => ?_⟩)
    cases s with
    | a => exact Nat.lt_of_not_le hn.2
    | b => exact Nat.le_of_not_lt hn.2

theorem bootable_of_upgraded (h : (v s).Valid) (ho : (v s.other).Upgraded) : Bootable v s := by
  rcases select_of_valid h with hs|hs
  · exact ⟨s, hs, .inl rfl⟩
  · exact ⟨s.other, hs, .inr ho⟩

/-- A version below that of the running slot wins. -/
theorem select_against_newer (ho : (v s.other).Valid) (hlt : (v s.other).ver < (v s).ver)
    : select v = some s.other := by
  refine select_eq_some_iff.mpr ⟨ho, fun _ => ?_⟩
  cases s with
  | a => exact hlt
  | b => exact hlt.le

/-- The version of an upgrade. -/
theorem upgrade_ver (hv : w.Valid) (hle : w.ver ≤ eraseFlag) : (w.ver+2^32-1) % 2^32 = w.ver-1 := by
  have hne := hv.ver_ne_zero
  have hmax : w.ver < 2^32 := hle.trans_lt (by decide)
  omega

/-- The words a confirmation leaves. -/
theorem AbState.Sound.finish {rb : ℕ} (h : ∀ x, (v x).Sound k) (hs : (v s).Valid)
    (hrb : rb = (v s).rb ∨ (v s).ver ≠ eraseFlag ∨ (v s).rb = rollbackEnFlag) :
    AbState.Sound k ⟨update (update v s.other .erased) s { v s with rb := rb }, some s⟩ := by
  have hw : Words.Sound k { v s with rb := rb } := by
    refine ⟨(h s).ver_le, (h s).finished, fun hr => ?_, (h s).recent⟩
    rcases hrb with hrb|hrb|hrb
    · exact (h s).rollback (hrb.symm.trans hr)
    · exact (h s).finished.resolve_left hrb
    · exact (h s).rollback hrb
  refine ⟨sound_update (sound_update h (.erased k)) hw, fun x hx => ?_⟩
  cases hx
  set u := update (update v s.other .erased) s { v s with rb := rb } with hu
  have hself : u s = { v s with rb := rb } := update_self ..
  have hother : u s.other = .erased := by
    rw [hu, update_of_ne s.other_ne, update_self]
  have hvalid : (u s).Valid := by
    rw [hself]
    exact hs
  have hle : (u s).ver ≤ eraseFlag := by
    rw [hself]
    exact (h s).ver_le
  refine ⟨hvalid, ?_⟩
  by_cases hb : s = .a ∨ (u s).ver ≠ eraseFlag
  · exact .inl ((select_against_erased hvalid hle (congrArg Words.ver hother)).mpr hb)
  · push Not at hb
    exact .inr (.inr ⟨(Slot.eq_or_other .a s).resolve_left hb.1, hb.2⟩)

/-- The words an upgrade leaves. -/
theorem AbState.Sound.upgrade (h : ∀ x, (v x).Sound k) (hs : (v s).Valid) :
    AbState.Sound (k+1) ⟨update v s.other
      ⟨((v s).ver+2^32-1) % 2^32, rollbackEnFlag, finishFlag⟩, some s⟩ := by
  have hle := (h s).ver_le
  have hne := hs.ver_ne_zero
  have hw : Words.Sound (k+1) ⟨((v s).ver+2^32-1) % 2^32, rollbackEnFlag, finishFlag⟩ := by
    have hrec := (h s).recent hne
    rw [upgrade_ver hs hle]
    exact ⟨(Nat.sub_le _ _).trans hle, .inr rfl, fun _ => rfl, fun _ => by simp only; omega⟩
  refine ⟨sound_update (fun x => (h x).mono k.le_succ) hw, fun x hx => ?_⟩
  cases hx
  refine ⟨?_, .inr (.inl ?_)⟩
  · simp only [update_of_ne s.other_ne.symm]
    exact hs
  · simp only [update_self]
    exact ⟨rfl, rfl⟩

/-- Every step keeps the invariant. -/
theorem AbState.Sound.step {s next : AbState} (h : s.Sound k) (hstep : AbStep n s next)
    : next.Sound (k+n) := by
  cases hstep with
  | select => exact .select h.words
  | @fallback v _ x hs hrb =>
    have hw : Words.Sound k { v x with ver := 0 } :=
      ⟨Nat.zero_le _, Or.inr ((h.words x).rollback hrb), (h.words x).rollback,
        fun hne => absurd rfl hne⟩
    exact .select (sound_update h.words hw)
  | wipe => exact ⟨fun _ => .erased _, fun x hx => kept_of_select hx⟩
  | finish hs hrb => exact .finish h.words (h.kept _ hs).valid hrb
  | upgrade hs => exact .upgrade h.words (h.kept _ hs).valid

end PineVoice.Bootab
