import PineVoice.KvStep
import Mathlib.Algebra.BigOperators.Group.Finset.Piecewise
import Mathlib.Algebra.Order.BigOperators.Group.Finset

/-!
# Logs as a map

The live records of a key over all blocks form a multiset of values with their versions. Inside an
operation a key may have two live records, and the versions tell which of them counts.
-/

namespace PineVoice.Kv

open Function NorFlash List

/-- Values with versions of the live records of a log with a key. -/
def logCopies (key : List UInt8) (log : List Rec) : Multiset (List UInt8 × UInt8) :=
  ((log.filter fun r => r.live && r.key == key).map fun r => (r.value, r.version) : List _)

/-- Values with versions of the live records of a store with a key. -/
def copies (num : ℕ) (logs : ℕ → List Rec) (key : List UInt8) : Multiset (List UInt8 × UInt8) :=
  ∑ i ∈ Finset.range num, logCopies key (logs i)

/-- The contribution of one live record. -/
def Rec.copy (r : Rec) (key : List UInt8) : Multiset (List UInt8 × UInt8) :=
  if r.key = key then {(r.value, r.version)} else 0

@[simp] theorem logCopies_nil (key : List UInt8) : logCopies key [] = 0 := rfl

theorem logCopies_cons (key : List UInt8) (r : Rec) (log : List Rec) :
    logCopies key (r :: log) = (if r.live then r.copy key else 0)+logCopies key log := by
  by_cases hl : r.live = true
  · by_cases hk : r.key = key
    · simp [logCopies, Rec.copy, hl, hk]
    · simp [logCopies, Rec.copy, hk]
  · simp [logCopies, hl]

theorem logCopies_append (key : List UInt8) (xs ys : List Rec) :
    logCopies key (xs ++ ys) = logCopies key xs+logCopies key ys := by
  simp only [logCopies, filter_append, map_append, ←Multiset.coe_add]

variable {log : List Rec}

theorem logCopies_of_liveCount (key : List UInt8) (h : liveCount log = 0) :
    logCopies key log = 0 := by
  induction log with
  | nil => rfl
  | cons r log ih =>
    obtain ⟨hr, h⟩ := liveCount_cons_eq_zero.mp h
    simp [logCopies_cons, hr, ih h]

/-- A live record contributes its copy. -/
theorem mem_logCopies {r : Rec} (hr : r ∈ log) (hl : r.live = true) :
    (r.value, r.version) ∈ logCopies r.key log := by
  rw [logCopies, Multiset.mem_coe, List.mem_map]
  exact ⟨r, List.mem_filter.mpr ⟨hr, by simp [hl]⟩, rfl⟩

/-- Every copy comes from a live record. -/
theorem exists_of_mem_logCopies {key value : List UInt8} {version : UInt8}
    (h : (value, version) ∈ logCopies key log) :
    ∃ r ∈ log, r.live = true ∧ r.key = key ∧ r.value = value ∧ r.version = version := by
  rw [logCopies, Multiset.mem_coe, List.mem_map] at h
  obtain ⟨r, hr, he⟩ := h
  obtain ⟨hmem, hp⟩ := List.mem_filter.mp hr
  simp only [Bool.and_eq_true, beq_iff_eq] at hp
  exact ⟨r, hmem, hp.1, hp.2, congrArg Prod.fst he, congrArg Prod.snd he⟩

section Update

variable {num i : ℕ} {logs : ℕ → List Rec}

/-- Replacing one log exchanges its copies. -/
theorem copies_update (logs : ℕ → List Rec) (hi : i < num) (log : List Rec) (key : List UInt8) :
    copies num (update logs i log) key+logCopies key (logs i) =
      copies num logs key+logCopies key log := by
  have hmem : i ∈ Finset.range num := Finset.mem_range.mpr hi
  have he : ∀ j, logCopies key (update logs i log j) =
      update (fun j => logCopies key (logs j)) i (logCopies key log) j := by
    intro j
    by_cases hj : j = i
    · subst hj
      rw [update_self, update_self]
    · rw [update_of_ne hj, update_of_ne hj]
  have hold := Finset.add_sum_erase (Finset.range num) (fun j => logCopies key (logs j)) hmem
  rw [copies, copies, ←hold]
  simp only [he]
  rw [Finset.sum_update_of_mem hmem, Finset.sdiff_singleton_eq_erase]
  ac_rfl

variable {r : Rec} {post pre : List Rec}

/-- Appending a live record adds its copy. -/
theorem copies_append (hi : i < num) (hl : r.live = true) (key : List UInt8) :
    copies num (update logs i (logs i ++ [r])) key = copies num logs key+r.copy key := by
  have h := copies_update logs hi (logs i ++ [r]) key
  rw [logCopies_append, logCopies_cons, if_pos hl] at h
  refine add_right_cancel (b := logCopies key (logs i)) (h.trans ?_)
  ac_rfl

/-- What deleting a record leaves of its log: the last live record takes the
whole block with it. -/
def removed (pre : List Rec) (r : Rec) (post : List Rec) : List Rec :=
  if 1 < liveCount (pre ++ r :: post) then pre ++ r.kill :: post else []

/-- Others are left: the record still takes space. -/
theorem removed_more (hl : r.live = true) (hmore : 1 < liveCount (pre ++ r :: post)) :
    total (removed pre r post) = total (pre ++ r :: post) ∧
      liveSize (removed pre r post)+r.nodeSize = liveSize (pre ++ r :: post) ∧
      0 < liveSize (removed pre r post) := by
  have hpos : 0 < liveCount pre ∨ 0 < liveCount post := by
    rw [liveCount_append, liveCount_cons, if_pos hl] at hmore
    omega
  simp only [←liveSize_pos] at hpos
  rw [removed, if_pos hmore]
  simp only [total_append, total_cons, liveSize_append, liveSize_cons, Rec.kill_nodeSize,
    Rec.kill_live, hl, if_true, Bool.false_eq_true, if_false]
  exact ⟨trivial, by omega, by omega⟩

/-- None is left: the block is erased. -/
theorem removed_last (hl : r.live = true) (hlast : ¬1 < liveCount (pre ++ r :: post)) :
    removed pre r post = [] ∧ liveSize (pre ++ r :: post) = r.nodeSize := by
  have hz : ¬0 < liveCount pre ∧ ¬0 < liveCount post := by
    rw [liveCount_append, liveCount_cons, if_pos hl] at hlast
    omega
  simp only [←liveSize_pos] at hz
  rw [removed, if_neg hlast, liveSize_append, liveSize_cons, if_pos hl]
  exact ⟨rfl, by omega⟩

theorem logCopies_removed (hl : r.live = true) (key : List UInt8) :
    logCopies key (removed pre r post)+r.copy key = logCopies key (pre ++ r :: post) := by
  rw [removed, logCopies_append, logCopies_cons]
  split
  · rw [logCopies_append, logCopies_cons]
    ac_rfl
  · next h =>
    rw [liveCount_append, liveCount_cons, if_pos hl] at h
    rw [logCopies_of_liveCount key (show liveCount pre = 0 by omega),
      logCopies_of_liveCount key (show liveCount post = 0 by omega)]
    ac_rfl

/-- Deleting a live record takes its copy away. -/
theorem copies_removed (hi : i < num) (hlog : logs i = pre ++ r :: post) (hl : r.live = true)
    (key : List UInt8) :
    copies num (update logs i (removed pre r post)) key+r.copy key = copies num logs key := by
  have h := copies_update logs hi (removed pre r post) key
  rw [hlog, ←logCopies_removed hl] at h
  refine add_right_cancel (b := logCopies key (removed pre r post)) (Eq.trans ?_ h)
  ac_rfl

/-- A live record of the store is one of the copies of its key. -/
theorem logCopies_le_copies (hi : i < num) (key : List UInt8) :
    logCopies key (logs i) ≤ copies num logs key :=
  Finset.single_le_sum (f := fun j => logCopies key (logs j)) (fun _ _ => zero_le)
    (Finset.mem_range.mpr hi)

end Update

/-- What the store maps keys to. -/
abbrev Contents := List UInt8 → Option (List UInt8)

/-- One copy of a stored value, none of an absent one. -/
def Sole (c : Multiset (List UInt8 × UInt8)) : Option (List UInt8) → Prop
  | none => c = 0
  | some v => ∃ version, c = {(v, version)}

/-- The only copy is the stored value. -/
theorem Sole.eq_of_mem {c : Multiset (List UInt8 × UInt8)} {o : Option (List UInt8)}
    {x : List UInt8 × UInt8} (h : Sole c o) (hx : x ∈ c) : c = {x} ∧ o = some x.1 := by
  cases o with
  | none =>
    rw [show c = 0 from h] at hx
    exact absurd hx (Multiset.notMem_zero _)
  | some v =>
    obtain ⟨version, rfl⟩ := h
    rw [Multiset.mem_singleton.mp hx]
    exact ⟨rfl, rfl⟩

/-- A second copy of the value from before may be there as long as its
version is the one before. -/
def Newest (before : Option (List UInt8)) (c : Multiset (List UInt8 × UInt8))
    (o : Option (List UInt8)) : Prop :=
  Sole c o ∨ ∃ old v version, before = some old ∧ o = some v ∧
    c = {(old, version), (v, bump version)}

/-- The logs hold the contents with one record a key. -/
def Resolved (num : ℕ) (M : Contents) (logs : ℕ → List Rec) : Prop :=
  ∀ key, Sole (copies num logs key) (M key)

/-- The logs determine the contents, with two records for at most one key,
the older one with its value in the contents from before. -/
def Recoverable (num : ℕ) (before M : Contents) (logs : ℕ → List Rec) : Prop :=
  ∃ k, Newest (before k) (copies num logs k) (M k) ∧
    ∀ key, key ≠ k → Sole (copies num logs key) (M key)

theorem Resolved.recoverable {num : ℕ} {before M : Contents} {logs : ℕ → List Rec}
    (h : Resolved num M logs) : Recoverable num before M logs :=
  ⟨[], Or.inl (h []), fun key _ => h key⟩

section Resolve

variable {num i : ℕ} {logs : ℕ → List Rec} {M : Contents} {pre post : List Rec} {r : Rec}

theorem Rec.copy_self (r : Rec) : r.copy r.key = {(r.value, r.version)} := if_pos rfl

variable {key : List UInt8}

theorem Rec.copy_of_ne (h : key ≠ r.key) : r.copy key = 0 :=
  if_neg fun he => h he.symm

/-- A key without copies is absent. -/
theorem Resolved.absent (h : Resolved num M logs) (hz : copies num logs key = 0)
    : M key = none := by
  have hs := h key
  cases hv : M key with
  | none => rfl
  | some v =>
    rw [hv, hz] at hs
    obtain ⟨_, hc⟩ := hs
    exact absurd hc.symm (Multiset.singleton_ne_zero _)

/-- The only copy of a key holds its value. -/
theorem Resolved.of_sole (h : Resolved num M logs) {v : List UInt8} {version : UInt8}
    (hc : copies num logs key = {(v, version)}) : M key = some v := by
  have hs := h key
  cases hM : M key with
  | none =>
    rw [hM, hc] at hs
    exact absurd hs (Multiset.singleton_ne_zero _)
  | some w =>
    rw [hM, hc] at hs
    obtain ⟨version', he⟩ := hs
    rw [(Prod.mk.inj (Multiset.singleton_inj.mp he)).1]

/-- A live record is the only copy of its key. -/
theorem Resolved.live (h : Resolved num M logs) (hi : i < num) (hr : r ∈ logs i)
    (hl : r.live = true) :
    copies num logs r.key = {(r.value, r.version)} ∧ M r.key = some r.value :=
  (h r.key).eq_of_mem (Multiset.mem_of_le (logCopies_le_copies hi r.key) (mem_logCopies hr hl))

/-- Appending a record with the version behind the one it replaces sets its
key in the contents. -/
theorem Resolved.append (h : Resolved num M logs) (hi : i < num) (hl : r.live = true)
    (hv : copies num logs r.key = 0 ∨
      ∃ old version, copies num logs r.key = {(old, version)} ∧ r.version = bump version) :
    Recoverable num M (update M r.key (some r.value)) (update logs i (logs i ++ [r])) := by
  refine ⟨r.key, ?_, fun key hk => ?_⟩
  · rw [copies_append hi hl, Rec.copy_self, update_self]
    rcases hv with hz|⟨old, version, hc, hb⟩
    · rw [hz]
      exact Or.inl ⟨r.version, rfl⟩
    · rw [hc, hb]
      exact Or.inr ⟨old, r.value, version, h.of_sole hc, rfl, rfl⟩
  · rw [copies_append hi hl, Rec.copy_of_ne hk, add_zero, update_of_ne hk]
    exact h key

/-- Appending a record and deleting the one it replaces sets its key in the
contents. -/
theorem Resolved.replace {j : ℕ} {x : Rec} (h : Resolved num M logs) (hi : i < num) (hj : j < num)
    (hx : x.live = true) (hr : r ∈ logs j) (hlive : r.live = true) (hkey : x.key = r.key)
    (hlog : update logs i (logs i ++ [x]) j = pre ++ r :: post) :
    Resolved num (update M x.key (some x.value))
      (update (update logs i (logs i ++ [x])) j (removed pre r post)) := by
  intro key
  have hrem := copies_removed hj hlog hlive key
  rw [copies_append hi hx] at hrem
  by_cases hk : key = x.key
  · subst hk
    have hold := (h.live hj hr hlive).1
    rw [hkey] at hrem ⊢
    rw [hold, ←Rec.copy_self, add_comm] at hrem
    rw [update_self, add_left_cancel hrem, ←hkey, Rec.copy_self]
    exact ⟨x.version, rfl⟩
  · have hk' : key ≠ r.key := fun he => hk (he.trans hkey.symm)
    rw [Rec.copy_of_ne hk', Rec.copy_of_ne hk, add_zero, add_zero] at hrem
    rw [update_of_ne hk, hrem]
    exact h key

/-- Appending a record of an absent key adds it to the contents. -/
theorem Resolved.insert (h : Resolved num M logs) (hi : i < num) (hl : r.live = true)
    (hz : copies num logs r.key = 0) :
    Resolved num (update M r.key (some r.value)) (update logs i (logs i ++ [r])) := by
  intro key
  rw [copies_append hi hl]
  by_cases hk : key = r.key
  · subst hk
    rw [hz, Rec.copy_self, update_self]
    exact ⟨r.version, rfl⟩
  · rw [Rec.copy_of_ne hk, add_zero, update_of_ne hk]
    exact h key

/-- Deleting the record of a key takes it out of the contents. -/
theorem Resolved.remove (h : Resolved num M logs) (hi : i < num) (hl : r.live = true)
    (hlog : logs i = pre ++ r :: post) :
    Resolved num (update M r.key none) (update logs i (removed pre r post)) := by
  intro key
  have hrem := copies_removed hi hlog hl key
  by_cases hk : key = r.key
  · subst hk
    have hmem : r ∈ logs i := by
      rw [hlog]
      exact mem_append_right _ mem_cons_self
    rw [(h.live hi hmem hl).1, Rec.copy_self] at hrem
    rw [update_self]
    exact add_right_cancel (hrem.trans (zero_add _).symm)
  · rw [Rec.copy_of_ne hk, add_zero] at hrem
    rw [update_of_ne hk, hrem]
    exact h key

end Resolve

/-- One flash operation of the store seen on the logs. -/
inductive LogStep (size num : ℕ) (logs : ℕ → List Rec) : Op → (ℕ → List Rec) → Prop
  /-- A fresh record behind a log. -/
  | append {i : ℕ} (hi : i < num) {key value : List UInt8} (hst : Storable key value)
      {version : UInt8} (hv : version ≠ 0)
      (hroom : total (logs i)+(Rec.fresh hst version).nodeSize+4 ≤ size) :
      LogStep size num logs (.write (i*size+total (logs i)) (Rec.fresh hst version).body)
        (update logs i (logs i ++ [Rec.fresh hst version]))
  /-- A cleared flag word. -/
  | kill {i : ℕ} (hi : i < num) {pre post : List Rec} {r : Rec}
      (hlog : logs i = pre ++ r :: post) (hlive : r.live = true)
      (hmore : 1 < liveCount (logs i)) :
      LogStep size num logs (.write (i*size+(total pre+r.nodeSize-4)) [0, 0, 0, 0])
        (update logs i (pre ++ r.kill :: post))
  /-- An erased block. -/
  | clear {i : ℕ} (hi : i < num) :
      LogStep size num logs (.erase (i*size) size) (update logs i [])

/-- A sequence of flash operations with a property of all logs on the way. -/
inductive LogRun (size num : ℕ) (Q : (ℕ → List Rec) → Prop) :
    (ℕ → List Rec) → List Op → (ℕ → List Rec) → Prop
  /-- No operation. -/
  | nil {logs : ℕ → List Rec} (hq : Q logs) : LogRun size num Q logs [] logs
  /-- One operation and the rest. -/
  | cons {logs logs' logs'' : ℕ → List Rec} {op : Op} {ops : List Op} (hq : Q logs)
      (hstep : LogStep size num logs op logs') (hrun : LogRun size num Q logs' ops logs'') :
      LogRun size num Q logs (op :: ops) logs''

section Run

variable {size num : ℕ} {Q Q' : (ℕ → List Rec) → Prop} {logs logs' logs'' : ℕ → List Rec}

theorem LogRun.append {xs ys : List Op} (h : LogRun size num Q logs xs logs')
    (h' : LogRun size num Q logs' ys logs'') : LogRun size num Q logs (xs ++ ys) logs'' := by
  induction h with
  | nil _ => exact h'
  | cons hq hstep _ ih => exact .cons hq hstep (ih h')

theorem LogRun.mono {ops : List Op} (h : LogRun size num Q logs ops logs')
    (hq : ∀ l, Q l → Q' l) : LogRun size num Q' logs ops logs' := by
  induction h with
  | nil h => exact .nil (hq _ h)
  | cons h hstep _ ih => exact .cons (hq _ h) hstep ih

end Run

/-- A store moves to another one by flash operations that keep a property of
the logs. -/
structure Advance (Q : (ℕ → List Rec) → Prop) (kv : Kvset) (logs : ℕ → List Rec) (kv' : Kvset)
    (logs' : ℕ → List Rec) : Prop where
  /-- The result can be written to. -/
  ready : StoreReady kv' logs'
  /-- The block size stays. -/
  size_eq : kv'.size = kv.size
  /-- The number of blocks stays. -/
  num_eq : kv'.num = kv.num
  /-- The operations issued. -/
  run : ∃ ops, kv'.trace = kv.trace ++ ops ∧ kv'.flash = applyAll kv.flash ops ∧
    LogRun kv.size kv.num Q logs ops logs'

section Advance

variable {Q Q' : (ℕ → List Rec) → Prop} {kv kv' kv'' : Kvset} {logs logs' logs'' : ℕ → List Rec}

theorem Advance.refl (h : StoreReady kv logs) (hq : Q logs) : Advance Q kv logs kv logs :=
  ⟨h, rfl, rfl, [], (append_nil _).symm, rfl, .nil hq⟩

theorem Advance.trans (h : Advance Q kv logs kv' logs') (h' : Advance Q kv' logs' kv'' logs'') :
    Advance Q kv logs kv'' logs'' := by
  obtain ⟨xs, ht, hf, hr⟩ := h.run
  obtain ⟨ys, ht', hf', hr'⟩ := h'.run
  rw [h.size_eq, h.num_eq] at hr'
  refine ⟨h'.ready, h'.size_eq.trans h.size_eq, h'.num_eq.trans h.num_eq, xs ++ ys, ?_, ?_,
    hr.append hr'⟩
  · rw [ht', ht, append_assoc]
  · rw [hf', hf, applyAll_append]

theorem Advance.mono (h : Advance Q kv logs kv' logs') (hq : ∀ l, Q l → Q' l) :
    Advance Q' kv logs kv' logs' := by
  obtain ⟨ops, ht, hf, hr⟩ := h.run
  exact ⟨h.ready, h.size_eq, h.num_eq, ops, ht, hf, hr.mono hq⟩

variable {id : ℕ} {pre post : List Rec} {r : Rec}

theorem advance_append (h : StoreReady kv logs) (hid : id < kv.num) {key value : List UInt8}
    (hst : Storable key value) {version : UInt8} (hv : version ≠ 0)
    (hroom : total (logs id)+(Rec.fresh hst version).nodeSize+4 ≤ kv.size) (hq : Q logs)
    (hq' : Q (update logs id (logs id ++ [Rec.fresh hst version]))) :
    Advance Q kv logs (appendRec kv id (Rec.fresh hst version))
      (update logs id (logs id ++ [Rec.fresh hst version])) := by
  refine ⟨h.appendRec hid hst version hroom, rfl, rfl, _, rfl, rfl, ?_⟩
  rw [(h.clean id hid).writeOffset]
  exact .cons hq (.append hid hst hv hroom) (.nil hq')

/-- `kvnode_rm` on a live record is one step. -/
theorem advance_remove (h : StoreReady kv logs) (hid : id < kv.num)
    (hlog : logs id = pre ++ r :: post) (hlive : r.live = true) (hq : Q logs)
    (hq' : Q (update logs id (removed pre r post))) :
    Advance Q kv logs (kvnodeRm kv (r.node id (total pre)))
      (update logs id (removed pre r post)) := by
  rw [removed, ←hlog] at hq' ⊢
  split at hq'
  · next hmore =>
    rw [if_pos hmore, kvnodeRm_more h.toStoreRep hid hlog hlive hmore]
    exact ⟨h.killRec hid hlog hlive hmore, rfl, rfl, _, rfl, rfl,
      .cons hq (.kill hid hlog hlive hmore) (.nil hq')⟩
  · next hlast =>
    rw [if_neg hlast, kvnodeRm_last h.toStoreRep hid hlive (by omega)]
    exact ⟨h.clearBlock hid, rfl, rfl, _, rfl, rfl, .cons hq (.clear hid) (.nil hq')⟩

/-- Two stores of one geometry with the same current and reserve block. -/
structure SameFrame (kv kv' : Kvset) : Prop where
  /-- The block size stays. -/
  size_eq : kv'.size = kv.size
  /-- The number of blocks stays. -/
  num_eq : kv'.num = kv.num
  /-- The current block stays. -/
  bid_eq : kv'.bid = kv.bid
  /-- The reserve block stays. -/
  gcBid_eq : kv'.gcBid = kv.gcBid

/-- `kvnode_rm` keeps everything but the flash and the counters. -/
theorem kvnodeRm_frame (kv : Kvset) (node : KvNode) : SameFrame kv (kvnodeRm kv node) := by
  rw [kvnodeRm]
  split
  · dsimp only
    split <;> exact ⟨rfl, rfl, rfl, rfl⟩
  · exact ⟨rfl, rfl, rfl, rfl⟩

end Advance

end PineVoice.Kv
