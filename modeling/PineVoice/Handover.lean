import Mathlib.Data.List.Nodup
import Mathlib.Data.Set.Insert
import Mathlib.Logic.Function.Basic

/-!
# Objects that two parties release

An owner makes an object and may hand it over to a server. Whoever finishes first with an object
parks it, and whoever finishes second finds it there and frees it. An object that was never
handed over stays parked: it is lost.
-/

namespace PineVoice.Handover

open Function List

variable {T I : Type*}

/-- Who holds what, and what became of the objects. -/
structure Ledger (T I : Type*) where
  /-- The object that an owner holds, and if it was handed over. -/
  holder : T → Option (I × Bool)
  /-- The objects that the server still has to finish, in their order. -/
  served : List I
  /-- The objects that one party has finished. -/
  parked : List I
  /-- The objects that exist. -/
  live : Set I
  /-- All objects made so far. -/
  made : List I
  /-- The objects freed, in the order in which they were. -/
  freed : List I
  /-- The objects whose owner has finished without handing them over. -/
  lost : List I

/-- Nothing was made. -/
def Ledger.empty : Ledger T I := ⟨fun _ => none, [], [], ∅, [], [], []⟩

section Step

variable [DecidableEq T] [DecidableEq I]

/-- A party finishes with an object. -/
def Ledger.finish (l : Ledger T I) (i : I) : Ledger T I :=
  if i ∈ l.parked then
    { l with parked := l.parked.erase i, live := l.live \ {i}, freed := l.freed ++ [i] }
  else { l with parked := l.parked ++ [i] }

/-- What may happen. -/
inductive Step (l : Ledger T I) : Ledger T I → Prop where
  /-- An owner makes a new object. -/
  | make {t : T} {i : I} (idle : l.holder t = none) (fresh : i ∉ l.made) :
      Step l { l with
        holder := update l.holder t (some (i, false))
        live := insert i l.live
        made := l.made ++ [i] }
  /-- It hands its object over. -/
  | hand {t : T} {i : I} (held : l.holder t = some (i, false)) :
      Step l { l with
        holder := update l.holder t (some (i, true))
        served := l.served ++ [i] }
  /-- It finishes with an object that it has handed over. -/
  | leave {t : T} {i : I} (held : l.holder t = some (i, true)) :
      Step l (Ledger.finish { l with holder := update l.holder t none } i)
  /-- It finishes with an object that it has not handed over. -/
  | abandon {t : T} {i : I} (held : l.holder t = some (i, false)) :
      Step l (Ledger.finish { l with
        holder := update l.holder t none
        lost := l.lost ++ [i] } i)
  /-- The server finishes with its first object. -/
  | serve {i : I} {rest : List I} (first : l.served = i :: rest) :
      Step l (Ledger.finish { l with served := rest } i)

end Step

/-- An owner holds the object. -/
def Holds (holder : T → Option (I × Bool)) (i : I) : Prop := ∃ t sent, holder t = some (i, sent)

/-- What every step keeps. -/
structure Ledger.Ok (l : Ledger T I) : Prop where
  /-- An object has one owner. -/
  one : ∀ t u i b c, l.holder t = some (i, b) → l.holder u = some (i, c) → t = u
  /-- What is held exists. -/
  held_live : ∀ i, Holds l.holder i → i ∈ l.live
  /-- What is served exists. -/
  served_live : ∀ i ∈ l.served, i ∈ l.live
  /-- What is parked exists. -/
  parked_live : ∀ i ∈ l.parked, i ∈ l.live
  /-- An object is served once. -/
  served_nodup : l.served.Nodup
  /-- An object is parked once. -/
  parked_nodup : l.parked.Nodup
  /-- Nobody else has an object that was not handed over. -/
  unsent : ∀ t i, l.holder t = some (i, false) → i ∉ l.served ∧ i ∉ l.parked
  /-- The server has an object that was handed over, or has parked it. -/
  sent : ∀ t i, l.holder t = some (i, true) → (i ∈ l.parked ↔ i ∉ l.served)
  /-- An object without its owner is parked, for the server or for ever. -/
  gone : ∀ i ∈ l.live, ¬Holds l.holder i → i ∈ l.parked ∧ (i ∈ l.served ↔ i ∉ l.lost)
  /-- What is lost exists and has no owner. -/
  lost_gone : ∀ i ∈ l.lost, i ∈ l.live ∧ ¬Holds l.holder i
  /-- What was made exists or was freed. -/
  made_iff : ∀ i, i ∈ l.made ↔ i ∈ l.live ∨ i ∈ l.freed
  /-- What was freed does not exist. -/
  freed_dead : ∀ i ∈ l.freed, i ∉ l.live
  /-- Nothing is freed twice. -/
  freed_nodup : l.freed.Nodup

theorem Ledger.empty_ok : (Ledger.empty : Ledger T I).Ok where
  one := by simp [Ledger.empty]
  held_live := by simp [Ledger.empty, Holds]
  served_live := by simp [Ledger.empty]
  parked_live := by simp [Ledger.empty]
  served_nodup := nodup_nil
  parked_nodup := nodup_nil
  unsent := by simp [Ledger.empty]
  sent := by simp [Ledger.empty]
  gone := by simp [Ledger.empty]
  lost_gone := by simp [Ledger.empty]
  made_iff := by simp [Ledger.empty]
  freed_dead := by simp [Ledger.empty]
  freed_nodup := nodup_nil

section Holds

variable [DecidableEq T] {holder : T → Option (I × Bool)} {t : T} {i j : I} {sent sent' : Bool}

/-- An idle owner takes an object. -/
theorem holds_take (hidle : holder t = none) :
    Holds (update holder t (some (i, sent))) j ↔ j = i ∨ Holds holder j := by
  constructor
  · rintro ⟨u, b, hu⟩
    by_cases hut : u = t
    · rw [hut, update_self] at hu
      cases hu
      exact Or.inl rfl
    · rw [update_of_ne hut] at hu
      exact Or.inr ⟨u, b, hu⟩
  · rintro (rfl | ⟨u, b, hu⟩)
    · exact ⟨t, sent, update_self ..⟩
    · have hut : u ≠ t := fun h => by
        rw [h, hidle] at hu
        cases hu
      exact ⟨u, b, by rw [update_of_ne hut, hu]⟩

/-- Handing an object over does not change who holds it. -/
theorem holds_hand (hheld : holder t = some (i, sent)) :
    Holds (update holder t (some (i, sent'))) j ↔ Holds holder j := by
  simp only [Holds, update_apply]
  grind

/-- The only owner of an object finishes with it. -/
theorem holds_drop (hheld : holder t = some (i, sent))
    (hone : ∀ u b, holder u = some (i, b) → u = t) :
    Holds (update holder t none) j ↔ Holds holder j ∧ j ≠ i := by
  simp only [Holds, update_apply]
  grind

/-- What the other owners hold. -/
theorem holder_drop (hone : ∀ u b, holder u = some (i, b) → u = t) {u : T}
    (hu : update holder t none u = some (j, sent')) : holder u = some (j, sent') ∧ j ≠ i := by
  grind

end Holds

section Keeps

variable {l : Ledger T I} {t : T} {i : I}

section Owner

variable [DecidableEq T]

/-- A new object. -/
theorem Ledger.Ok.make (h : l.Ok) (idle : l.holder t = none) (fresh : i ∉ l.made) :
    Ledger.Ok { l with
      holder := update l.holder t (some (i, false))
      live := insert i l.live
      made := l.made ++ [i] } := by
  have hdead : i ∉ l.live ∧ i ∉ l.freed := by
    rw [h.made_iff, not_or] at fresh
    exact fresh
  have hserved : i ∉ l.served := fun hi => hdead.1 (h.served_live i hi)
  have hparked : i ∉ l.parked := fun hi => hdead.1 (h.parked_live i hi)
  have hheld : ¬Holds l.holder i := fun hi => hdead.1 (h.held_live i hi)
  have hlost : i ∉ l.lost := fun hi => hdead.1 (h.lost_gone i hi).1
  have hholds (j : I) : Holds (update l.holder t (some (i, false))) j ↔
      j = i ∨ Holds l.holder j := holds_take idle
  cases h
  constructor <;> simp only [hholds] <;> grind [Holds, update_apply]

/-- An object that only its owner has is handed over. -/
theorem Ledger.Ok.hand (h : l.Ok) (held : l.holder t = some (i, false)) :
    Ledger.Ok { l with
      holder := update l.holder t (some (i, true))
      served := l.served ++ [i] } := by
  have hlive : i ∈ l.live := h.held_live i ⟨t, false, held⟩
  have hunsent := h.unsent t i held
  have hholds (j : I) : Holds (update l.holder t (some (i, true))) j ↔
      Holds l.holder j := holds_hand held
  have hheld : Holds l.holder i := ⟨t, false, held⟩
  have hnodup : (l.served ++ [i]).Nodup := by
    rw [← concat_eq_append]
    exact h.served_nodup.concat hunsent.1
  cases h
  constructor <;> simp only [hholds] <;> grind [update_apply]

end Owner

variable [DecidableEq I]

/-- The server finishes with its first object. -/
theorem Ledger.Ok.serve (h : l.Ok) {rest : List I} (first : l.served = i :: rest) :
    (Ledger.finish { l with served := rest } i).Ok := by
  have hmem (j : I) : j ∈ l.served ↔ j = i ∨ j ∈ rest := by rw [first, mem_cons]
  have hi : i ∈ l.served := (hmem i).mpr (Or.inl rfl)
  have hlive : i ∈ l.live := h.served_live i hi
  have hfreed : i ∉ l.freed := fun hi => h.freed_dead i hi hlive
  have hnodup := h.served_nodup
  rw [first] at hnodup
  have hlost : i ∉ l.lost := fun hlost => by
    have hgone := h.gone i hlive (h.lost_gone i hlost).2
    exact hgone.2.mp hi hlost
  rw [Ledger.finish]
  dsimp only
  split_ifs with hparked
  · have hheld : ¬Holds l.holder i := by
      rintro ⟨t, b, ht⟩
      cases b with
      | false => exact (h.unsent t i ht).2 hparked
      | true => exact (h.sent t i ht).mp hparked hi
    have herase (j : I) : j ∈ l.parked.erase i ↔ j ≠ i ∧ j ∈ l.parked :=
      h.parked_nodup.mem_erase_iff
    cases h
    constructor <;> simp only [herase] <;> grind [Holds]
  · have hheld : Holds l.holder i := by
      by_contra hheld
      exact hparked (h.gone i hlive hheld).1
    cases h
    constructor <;> grind [Holds]

variable [DecidableEq T]

omit [DecidableEq I] in
/-- An owner lets its object go: the others keep theirs. -/
theorem Ledger.Ok.drop {sent : Bool} (h : l.Ok) (held : l.holder t = some (i, sent)) :
    i ∈ l.live ∧
      (∀ j, Holds (update l.holder t none) j ↔ Holds l.holder j ∧ j ≠ i) ∧
      ∀ u j b, update l.holder t none u = some (j, b) → l.holder u = some (j, b) ∧ j ≠ i := by
  have hone (u : T) (b : Bool) (hu : l.holder u = some (i, b)) : u = t :=
    h.one u t i b sent hu held
  exact ⟨h.held_live i ⟨t, sent, held⟩, fun j => holds_drop held hone,
    fun u j b hu => holder_drop hone hu⟩

/-- An owner finishes with an object that was handed over. -/
theorem Ledger.Ok.leave (h : l.Ok) (held : l.holder t = some (i, true)) :
    (Ledger.finish { l with holder := update l.holder t none } i).Ok := by
  obtain ⟨hlive, hholds, hother⟩ := h.drop held
  have hsent := h.sent t i held
  have hlost : i ∉ l.lost := fun hi => (h.lost_gone i hi).2 ⟨t, true, held⟩
  have hfreed : i ∉ l.freed := fun hi => h.freed_dead i hi hlive
  rw [Ledger.finish]
  dsimp only
  split_ifs with hparked
  · have hmem (j : I) : j ∈ l.parked.erase i ↔ j ≠ i ∧ j ∈ l.parked :=
      h.parked_nodup.mem_erase_iff
    have hserved : i ∉ l.served := hsent.mp hparked
    cases h
    constructor <;> simp only [hmem] <;> grind
  · have hserved : i ∈ l.served := by
      by_contra hs
      exact hparked (hsent.mpr hs)
    cases h
    constructor <;> simp only [hholds] <;> grind

/-- An owner finishes with an object that was not handed over: nobody will free it. -/
theorem Ledger.Ok.abandon (h : l.Ok) (held : l.holder t = some (i, false)) :
    (Ledger.finish { l with
      holder := update l.holder t none
      lost := l.lost ++ [i] } i).Ok := by
  obtain ⟨hlive, hholds, hother⟩ := h.drop held
  have hunsent := h.unsent t i held
  rw [Ledger.finish, if_neg hunsent.2]
  cases h
  constructor <;> simp only [hholds] <;> grind

/-- Every step keeps the ledger in order. -/
theorem Ledger.Ok.step {l' : Ledger T I} (h : l.Ok) (hstep : Step l l') : l'.Ok := by
  cases hstep with
  | make idle fresh => exact h.make idle fresh
  | hand held => exact h.hand held
  | leave held => exact h.leave held
  | abandon held => exact h.abandon held
  | serve first => exact h.serve first

end Keeps

/-! ## What becomes of the objects -/

/-- A party that still has an object has it before it is freed. -/
theorem Ledger.Ok.not_freed {l : Ledger T I} (h : l.Ok) {i : I}
    (hi : Holds l.holder i ∨ i ∈ l.served) : i ∉ l.freed := by
  intro hfreed
  rcases hi with hheld | hserved
  · exact h.freed_dead i hfreed (h.held_live i hheld)
  · exact h.freed_dead i hfreed (h.served_live i hserved)

section Idle

variable {l : Ledger T I} (h : l.Ok) (hidle : ∀ t, l.holder t = none) (hserved : l.served = [])
include hidle

theorem not_holds (i : I) : ¬Holds l.holder i := by
  rintro ⟨t, b, ht⟩
  rw [hidle t] at ht
  cases ht

include h hserved

/-- When nobody has an object any more, the parked ones are the lost ones. -/
theorem Ledger.Ok.mem_parked_iff (i : I) : i ∈ l.parked ↔ i ∈ l.lost := by
  have hheld := not_holds hidle i
  have hnot : i ∉ l.served := by simp [hserved]
  constructor
  · intro hparked
    by_contra hlost
    exact hnot ((h.gone i (h.parked_live i hparked) hheld).2.mpr hlost)
  · intro hlost
    exact (h.gone i (h.lost_gone i hlost).1 hheld).1

/-- When nobody has an object any more, all were freed exactly once if none was lost. -/
theorem Ledger.Ok.all_freed_iff [DecidableEq I] :
    (∀ i ∈ l.made, l.freed.count i = 1) ∧ l.parked = [] ↔ l.lost = [] := by
  have hnil : l.parked = [] ↔ l.lost = [] := by
    simp only [eq_nil_iff_forall_not_mem, h.mem_parked_iff hidle hserved]
  rw [← hnil]
  refine ⟨And.right, fun hparked => ⟨fun i hi => ?_, hparked⟩⟩
  rcases (h.made_iff i).mp hi with hlive | hfreed
  · have hmem := (h.gone i hlive (not_holds hidle i)).1
    rw [hparked] at hmem
    cases hmem
  · exact count_eq_one_of_mem h.freed_nodup hfreed

end Idle

end PineVoice.Handover
