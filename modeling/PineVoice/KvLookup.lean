import PineVoice.KvMap

/-!
# Lookups

`kv_find` scans the blocks in order and reports the first live record of the
key. When the logs hold one record a key, `kv_get` returns the contents.
-/

namespace PineVoice.Kv

open NorFlash List

section Find

variable {kv : Kvset} {logs : ℕ → List Rec} {key : List UInt8}

/-- Where a live record of a key stands. -/
def IsAt (logs : ℕ → List Rec) (key : List UInt8) (i : ℕ) (pre : List Rec) (r : Rec)
    (post : List Rec) : Prop :=
  logs i = pre ++ r :: post ∧ r.live = true ∧ r.key = key

theorem findLoop_spec (h : StoreRep kv logs) (hk : 0 ∉ key) (n i : ℕ) (hn : i+n ≤ kv.num) :
    (findLoop kv key n i none = some none ∧ ∀ j, i ≤ j → j < i+n → logCopies key (logs j) = 0) ∨
    ∃ j pre r post, j < kv.num ∧ IsAt logs key j pre r post ∧
      findLoop kv key n i none = some (some (r.node j (total pre))) := by
  induction n generalizing i with
  | zero => exact .inl ⟨rfl, fun j h1 h2 => absurd h2 (by omega)⟩
  | succ n ih =>
    have hi : i < kv.num := by omega
    rw [findLoop, kvblockFind_rep i (h.rep i hi) h.size_lt hk]
    cases hf : findRec key 0 (logs i) with
    | some p =>
      obtain ⟨o, r⟩ := p
      obtain ⟨pre, post, hlog, ho, hlive, hkey⟩ := findRec_some hf
      rw [zero_add] at ho
      subst ho
      exact .inr ⟨i, pre, r, post, hi, ⟨hlog, hlive, hkey⟩, rfl⟩
    | none =>
      have hzero : logCopies key (logs i) = 0 := by
        refine Multiset.eq_zero_of_forall_notMem fun p hp => ?_
        obtain ⟨r, hr, hlive, hkey, -⟩ := exists_of_mem_logCopies hp
        exact findRec_none hf hr hlive hkey
      rcases ih (i+1) (by omega) with ⟨hr, hz⟩|⟨j, pre, r, post, hj, hat, hr⟩
      · refine .inl ⟨hr, fun j h1 h2 => ?_⟩
        rcases eq_or_lt_of_le h1 with rfl|hlt
        · exact hzero
        · exact hz j hlt (by omega)
      · exact .inr ⟨j, pre, r, post, hj, hat, hr⟩

/-- `kv_find` reports a live record of the key, or there is none. -/
theorem kvFind_spec (h : StoreRep kv logs) (hk : 0 ∉ key) :
    (kvFind kv key = some none ∧ copies kv.num logs key = 0) ∨
    ∃ i pre r post, i < kv.num ∧ IsAt logs key i pre r post ∧
      kvFind kv key = some (some (r.node i (total pre))) := by
  rcases findLoop_spec h hk kv.num 0 (by omega) with ⟨hr, hz⟩|hfound
  · refine Or.inl ⟨hr, Finset.sum_eq_zero fun j hj => hz j (Nat.zero_le _) ?_⟩
    rw [zero_add]
    exact Finset.mem_range.mp hj
  · exact .inr hfound

variable {i : ℕ} {post pre : List Rec} {r : Rec}

/-- The bytes of a record that was found. -/
theorem IsAt.holds (h : StoreRep kv logs) (hi : i < kv.num) (hat : IsAt logs key i pre r post) :
    Holds (kv.mem i) (total pre) r.bytes := by
  have hl := (h.rep i hi).logAt
  rw [hat.1, logAt_append, zero_add] at hl
  exact hl.2.1

theorem IsAt.mem (hat : IsAt logs key i pre r post) : r ∈ logs i := by
  rw [hat.1]
  exact mem_append_right _ mem_cons_self

/-- A value is read back from its record. -/
theorem readBytes_value {m : Mem} {off : ℕ} (h : Holds m off r.bytes) (n : ℕ) :
    readBytes m (off+r.key.length+5) (min r.value.length n) = r.value.take n := by
  have hv : Holds m (off+r.key.length+5) r.value := by
    rw [Rec.bytes, Rec.body, append_assoc, holds_append, append_assoc, holds_append,
      append_assoc, holds_append] at h
    exact h.2.2.1
  have ht : Holds m (off+r.key.length+5) (r.value.take n) := by
    rw [←take_append_drop n r.value, holds_append] at hv
    exact hv.1
  rw [Nat.min_comm, ←length_take]
  exact ht.readBytes_eq

/-- What `kv_get` answers for a value of the contents. -/
def answer (o : Option (List UInt8)) (n : ℕ) : ℤ × List UInt8 :=
  match o with
  | none => (-1, [])
  | some v => (v.length, v.take n)

/-- `kv_get` returns the contents. -/
theorem kvGet_resolved {M : Contents} (h : StoreRep kv logs) (hM : Resolved kv.num M logs)
    (hk : 0 ∉ key) (n : ℕ) : kvGet kv key n = some (answer (M key) n) := by
  rcases kvFind_spec h hk with ⟨hf, hz⟩|⟨i, pre, r, post, hi, hat, hf⟩
  · rw [kvGet, hf, hM.absent hz]
    rfl
  · have hv := (hM.live hi hat.mem hat.2.1).2
    rw [hat.2.2] at hv
    rw [kvGet, hf, hv]
    change some ((r.value.length : ℤ), readBytes (kv.mem i) (total pre+r.key.length+5)
      (min r.value.length n)) = _
    rw [readBytes_value (hat.holds h hi)]
    rfl

end Find

end PineVoice.Kv
