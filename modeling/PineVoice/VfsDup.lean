import Mathlib.Logic.Relation
import PineVoice.VfsFile

/-!
# What a duplicated descriptor acts on

From a duplicate a chain of redirections leads to a file. The chain stays as it is until a
descriptor on it is closed. From then on the duplicate leads nowhere, or to whatever takes the
slot next. `vfs_dup2` does not get as far: it looks for an open descriptor right after it has
closed it.
-/

namespace PineVoice.VfsFile

open Function Transition List

/-- One redirection. -/
def Files.Next (s : Files) (i j : ℕ) : Prop :=
  0 ≤ (s.file i).redirectFd-vfsFdOffset ∧ slotOf (s.file i).redirectFd = some j

/-- The chain of a slot. -/
def Files.Chain (s : Files) (i j : ℕ) : Prop := Relation.ReflTransGen s.Next i j

section Chains

variable {s s' : Files} {fd : ℤ} {i j x fuel : ℕ}

theorem get2_eq_some : vfsFileGet2 s fd = some i ↔ slotOf fd = some i ∧ s.opened i = true := by
  unfold vfsFileGet2
  rw [Option.bind_eq_some_iff]
  constructor
  · rintro ⟨k, hk, hopen⟩
    split_ifs at hopen with hbit
    cases hopen
    exact ⟨hk, hbit⟩
  · rintro ⟨hk, hbit⟩
    exact ⟨i, hk, if_pos hbit⟩

theorem slotOf_fdGet (hi : i < vfsMaxFileNum) : slotOf (vfsFdGet i) = some i := by
  have hsub : vfsFdGet i-vfsFdOffset = i := Int.add_sub_cancel ..
  rw [slotOf, hsub, if_pos ⟨Int.natCast_nonneg i, Int.ofNat_lt.mpr hi⟩]
  rfl

/-- One turn of the loop. -/
theorem redirectLoop_next (h : redirectLoop s (fuel+1) i = some (some j)) :
    (¬0 ≤ (s.file i).redirectFd-vfsFdOffset ∧ j = i ∧ (s.file i).node ≠ .null) ∨
      ∃ k, s.Next i k ∧ s.opened k = true ∧ redirectLoop s fuel k = some (some j) := by
  rw [redirectLoop] at h
  split_ifs at h with hredirect hnull
  · cases hget : vfsFileGet2 s (s.file i).redirectFd with
    | none =>
      rw [hget] at h
      cases h
    | some k =>
      rw [hget] at h
      rcases get2_eq_some.mp hget with ⟨hslot, hopen⟩
      exact .inr ⟨k, ⟨hredirect, hslot⟩, hopen, h⟩
  · cases h
  · cases h
    exact .inl ⟨hredirect, rfl, hnull⟩

theorem Next.unique {j' : ℕ} (h : s.Next i j) (h' : s.Next i j') : j = j' :=
  Option.some.inj (h.2.symm.trans h'.2)

/-- On a chain that leads to a file all descriptors are open. -/
theorem chain_opened : ∀ {fuel i j : ℕ}, redirectLoop s fuel i = some (some j) →
    s.opened i = true → ∀ {x}, s.Chain i x → s.opened x = true
  | 0, _, _, h, _, _, _ => by cases h
  | fuel+1, i, j, h, hopen, x, hchain => by
    rcases Relation.ReflTransGen.cases_head hchain with rfl | ⟨k, hnext, hrest⟩
    · exact hopen
    · rcases redirectLoop_next h with ⟨hend, -⟩ | ⟨k', hnext', hopen', hloop⟩
      · exact absurd hnext.1 hend
      · cases Next.unique hnext hnext'
        exact chain_opened hloop hopen' hrest

/-- What a chain leads to does not change while its slots do not. -/
theorem redirectLoop_congr : ∀ {fuel i j : ℕ}, redirectLoop s fuel i = some (some j) →
    (∀ x, s.Chain i x → s'.file x = s.file x ∧ s'.opened x = s.opened x) →
    redirectLoop s' fuel i = some (some j)
  | 0, _, _, h, _ => by cases h
  | fuel+1, i, j, h, hsame => by
    have hfile := (hsame i .refl).1
    rcases redirectLoop_next h with ⟨hend, rfl, hnode⟩ | ⟨k, hnext, hopen, hloop⟩
    · rw [redirectLoop, hfile, if_neg hend, if_neg hnode]
    · have hget : vfsFileGet2 s' (s.file i).redirectFd = some k :=
        get2_eq_some.mpr ⟨hnext.2, (hsame k (.single hnext)).2.trans hopen⟩
      rw [redirectLoop, hfile, if_pos hnext.1, hget]
      exact redirectLoop_congr hloop fun x hx => hsame x (.head hnext hx)

/-- The last slot of a chain. -/
theorem redirectLoop_end : ∀ {fuel i j : ℕ}, redirectLoop s fuel i = some (some j) → s.Chain i j
  | 0, _, _, h => by cases h
  | fuel+1, i, j, h => by
    rcases redirectLoop_next h with ⟨-, rfl, -⟩ | ⟨k, hnext, -, hloop⟩
    · exact .refl
    · exact .head hnext (redirectLoop_end hloop)

/-- Two redirections to each other are followed for ever. -/
theorem redirectLoop_cycle (hi : 0 ≤ (s.file i).redirectFd-vfsFdOffset)
    (hj : 0 ≤ (s.file j).redirectFd-vfsFdOffset)
    (hij : vfsFileGet2 s (s.file i).redirectFd = some j)
    (hji : vfsFileGet2 s (s.file j).redirectFd = some i) :
    ∀ fuel, redirectLoop s fuel i = none ∧ redirectLoop s fuel j = none
  | 0 => ⟨rfl, rfl⟩
  | fuel+1 => by
    have hrest := redirectLoop_cycle hi hj hij hji fuel
    constructor
    · rw [redirectLoop, if_pos hi, hij]
      exact hrest.2
    · rw [redirectLoop, if_pos hj, hji]
      exact hrest.1

/-- A chain with a closed descriptor behind its first one leads nowhere. -/
theorem redirectLoop_broken (hclosed : s'.opened x = false)
    (hsame : ∀ k, k ≠ x → s'.file k = s.file k) (hchain : s.Chain i x) :
    i ≠ x → ∀ fuel j, redirectLoop s' fuel i ≠ some (some j) := by
  induction hchain using Relation.ReflTransGen.head_induction_on with
  | refl => exact fun h => absurd rfl h
  | @head i k hnext _ ih =>
    intro hix fuel j hloop
    cases fuel with
    | zero => cases hloop
    | succ fuel =>
      have hnext' : s'.Next i k := by
        rw [Files.Next, hsame i hix]
        exact hnext
      rcases redirectLoop_next hloop with ⟨hend, -⟩ | ⟨k', hk', hopen, hrest⟩
      · exact hend hnext'.1
      · cases Next.unique hnext' hk'
        by_cases hkx : k = x
        · rw [hkx, hclosed] at hopen
          cases hopen
        · exact ih hkx fuel j hrest

end Chains

/-- An open descriptor has a node. -/
def Files.Ok (s : Files) : Prop := ∀ i, s.opened i = true → (s.file i).node ≠ .null

/-- A descriptor is on the chain of another one. -/
def Files.OnChain (s : Files) (d fd : ℤ) : Prop :=
  ∃ n x, slotOf d = some n ∧ slotOf fd = some x ∧ s.Chain n x

section Steps

variable {s s' : Files} {fd d : ℤ} {x : ℕ}

theorem freeSlot_some : ∀ {k idx i : ℕ}, freeSlot s k idx = some i →
    i < idx+k ∧ (s.file i).node = .null
  | 0, _, _, h => by cases h
  | k+1, idx, i, h => by
    rw [freeSlot] at h
    split_ifs at h with hnull
    · cases h
      exact ⟨by omega, hnull⟩
    · have hrest := freeSlot_some h
      exact ⟨by omega, hrest.2⟩

theorem freeSlot_ne (hok : s.Ok) {i : ℕ} (hfree : freeSlot s vfsMaxFileNum 0 = some i)
    (hx : s.opened x = true) : x ≠ i := by
  rintro rfl
  exact hok x hx (freeSlot_some hfree).2

/-- A slot gets a file and is open. -/
theorem Files.Ok.set (hok : s.Ok) {i : ℕ} {f : File} (hf : f.node ≠ .null) :
    ((s.setFile i f).mark i true).Ok := by
  intro k hk
  by_cases hki : k = i
  · rw [hki]
    show (update s.file i f i).node ≠ .null
    rwa [update_self]
  · have hopen : s.opened k = true := by
      rw [← hk]
      exact (update_of_ne hki true s.opened).symm
    show (update s.file i f k).node ≠ .null
    rw [update_of_ne hki]
    exact hok k hopen

/-- A slot is closed. -/
theorem Files.Ok.clear (hok : s.Ok) (i : ℕ) : (vfsFileDel (s.mark i false) i).Ok := by
  intro k hk
  have hki : k ≠ i := by
    rintro rfl
    have hbit : update s.opened k false k = true := hk
    rw [update_self] at hbit
    cases hbit
  have hopen : s.opened k = true := by
    rw [← hk]
    exact (update_of_ne hki false s.opened).symm
  show (update s.file i _ k).node ≠ .null
  rw [update_of_ne hki]
  exact hok k hopen

/-- A closed slot that is set and cleared again. -/
theorem Files.Ok.undo (hok : s.Ok) {i : ℕ} (hfree : (s.file i).node = .null) (f : File) (n : ℕ) :
    (vfsFileDel { s.setFile i f with openings := n } i).Ok := by
  intro k hk
  have hki : k ≠ i := by
    rintro rfl
    exact hok k hk hfree
  show (update (update s.file i f) i _ k).node ≠ .null
  rw [update_of_ne hki, update_of_ne hki]
  exact hok k hk

theorem Files.Ok.step (hok : s.Ok) {c : Call} (h : s.step c = some s') : s'.Ok := by
  cases c with
  | openFile node ret =>
    cases h
    fun_cases vfsOpen s node ret with
    | case1 | case2 => exact hok
    | case3 k i hfree => exact hok.undo (freeSlot_some hfree).2 _ _
    | case4 k i => exact Files.Ok.set hok (f := ⟨.inode k, -1, s.openings⟩) nofun
  | dup oldfd =>
    cases h
    fun_cases vfsDup s oldfd with
    | case1 | case2 => exact hok
    | case3 => exact hok.set nofun
  | close fd ret =>
    cases h
    fun_cases vfsClose s fd ret with
    | case1 | case2 | case4 => exact hok
    | case3 _ i => exact hok.clear i
    | case5 _ i =>
      exact Files.Ok.clear (s := { s with closings := s.closings ++ [(s.file i).opening] }) hok i

theorem Files.Ok.run {calls : List Call} (h : run Files.step Files.init calls = some s) : s.Ok :=
  run_keeps (fun _ _ _ _ hok hstep => hok.step hstep) (along_true calls Files.init) nofun h

/-- A call leaves an open slot alone, unless it closes it. -/
theorem step_frame (hok : s.Ok) {c : Call} (h : s.step c = some s') (hx : s.opened x = true)
    (hnot : ∀ fd ret, c = .close fd ret → slotOf fd ≠ some x) :
    s'.file x = s.file x ∧ s'.opened x = s.opened x := by
  cases c with
  | openFile node ret =>
    cases h
    fun_cases vfsOpen s node ret with
    | case1 | case2 => exact ⟨rfl, rfl⟩
    | case3 k i hfree =>
      have hxi := freeSlot_ne hok hfree hx
      exact ⟨(update_of_ne hxi ..).trans (update_of_ne hxi ..), rfl⟩
    | case4 k i hfree =>
      have hxi := freeSlot_ne hok hfree hx
      exact ⟨update_of_ne hxi .., update_of_ne hxi ..⟩
  | dup oldfd =>
    cases h
    fun_cases vfsDup s oldfd with
    | case1 | case2 => exact ⟨rfl, rfl⟩
    | case3 _ _ i hfree =>
      have hxi := freeSlot_ne hok hfree hx
      exact ⟨update_of_ne hxi .., update_of_ne hxi ..⟩
  | close fd ret =>
    cases h
    fun_cases vfsClose s fd ret with
    | case1 | case2 | case4 => exact ⟨rfl, rfl⟩
    | case3 _ i hget | case5 _ i hget =>
      have hxi : x ≠ i := by
        rintro rfl
        exact hnot fd ret rfl (get2_eq_some.mp hget).1
      exact ⟨update_of_ne hxi .., update_of_ne hxi ..⟩

/-- To close an open descriptor closes its slot and touches no other. -/
theorem close_closes (hok : s.Ok) {ret : ℤ} (h : s.step (.close fd ret) = some s')
    (hslot : slotOf fd = some x) (hx : s.opened x = true) :
    s'.opened x = false ∧ ∀ k, k ≠ x → s'.file k = s.file k := by
  have hstdio : ¬isStdioFd fd := by
    unfold slotOf vfsFdOffset at hslot
    split_ifs at hslot with hrange
    unfold isStdioFd
    omega
  have hget : vfsFileGet2 s fd = some x := get2_eq_some.mpr ⟨hslot, hx⟩
  cases h
  unfold vfsClose
  rw [hget]
  dsimp only
  split_ifs with hredirect hnull
  · exact ⟨update_self .., fun k hk => update_of_ne hk ..⟩
  · exact absurd hnull (hok x hx)
  · exact ⟨update_self .., fun k hk => update_of_ne hk ..⟩

end Steps

section Keeps

variable {s s' : Files} {fd d : ℤ} {opening : ℕ}

theorem ActsOn.slot (h : s.ActsOn d opening) : ∃ fuel n i, vfsFileGet2 s d = some n ∧
    redirectLoop s fuel n = some (some i) ∧ (s.file i).opening = opening := by
  rcases h with ⟨fuel, i, hget, hopening⟩
  revert hget
  fun_cases vfsFileGet s fuel d with
  | case1 => exact nofun
  | case2 n hn => exact fun hget => ⟨fuel, n, i, hn, hget, hopening⟩

/-- A descriptor acts on the same file as long as its chain is the same. -/
theorem ActsOn.congr (h : s.ActsOn d opening)
    (hsame : ∀ n, vfsFileGet2 s d = some n → ∀ x, s.Chain n x → s.opened x = true →
      s'.file x = s.file x ∧ s'.opened x = s.opened x) : s'.ActsOn d opening := by
  rcases ActsOn.slot h with ⟨fuel, n, i, hget, hloop, hopening⟩
  have hn := get2_eq_some.mp hget
  have hchain : ∀ x, s.Chain n x → s'.file x = s.file x ∧ s'.opened x = s.opened x :=
    fun x hx => hsame n hget x hx (chain_opened hloop hn.2 hx)
  refine ⟨fuel, i, ?_, ?_⟩
  · have hget' : vfsFileGet2 s' d = some n :=
      get2_eq_some.mpr ⟨hn.1, (hchain n .refl).2.trans hn.2⟩
    rw [vfsFileGet, hget']
    exact redirectLoop_congr hloop hchain
  · rw [(hchain i (redirectLoop_end hloop)).1, hopening]

/-- One call keeps the file of a descriptor if and only if it does not close a descriptor on its
chain. -/
theorem step_actsOn_iff (hok : s.Ok) (h : s.ActsOn d opening) {c : Call}
    (hstep : s.step c = some s') (hd : ∀ ret, c ≠ .close d ret) :
    s'.ActsOn d opening ↔ ∀ fd ret, c = .close fd ret → ¬s.OnChain d fd := by
  constructor
  · rintro h' fd ret rfl ⟨n, x, hn, hx, hchain⟩
    rcases ActsOn.slot h with ⟨fuel, n', i, hget, hloop, -⟩
    have hget' := get2_eq_some.mp hget
    cases Option.some.inj (hn.symm.trans hget'.1)
    have hopen : s.opened x = true := chain_opened hloop hget'.2 hchain
    rcases close_closes hok hstep hx hopen with ⟨hclosed, hsame⟩
    have hnx : n ≠ x := by
      rintro rfl
      have hfd : fd = d := by
        unfold slotOf at hn hx
        split_ifs at hn hx with h1 h2
        rw [← hx] at hn
        have heq := Option.some.inj hn
        omega
      exact hd ret (by rw [hfd])
    rcases ActsOn.slot h' with ⟨fuel', m, j, hm, hloop', -⟩
    cases Option.some.inj (hn.symm.trans (get2_eq_some.mp hm).1)
    exact redirectLoop_broken hclosed hsame hchain hnx fuel' j hloop'
  · intro hnot
    refine ActsOn.congr h fun n hget x hchain hopen => ?_
    refine step_frame hok hstep hopen fun fd ret hc hx => hnot fd ret hc ?_
    exact ⟨n, x, (get2_eq_some.mp hget).1, hx, hchain⟩

/-- Right after the call a duplicate acts on the file of the old descriptor. -/
theorem dup_actsOn (hok : s.Ok) (hdup : vfsDup s fd = (s', d)) (hd : 0 ≤ d)
    (h : s.ActsOn fd opening) : s'.ActsOn d opening := by
  rcases ActsOn.slot h with ⟨-, old, -, hget, -, -⟩
  rw [vfsDup, hget] at hdup
  cases hfree : freeSlot s vfsMaxFileNum 0 with
  | none =>
    rw [hfree] at hdup
    cases hdup
    exact absurd hd (by decide)
  | some i =>
    rw [hfree] at hdup
    cases hdup
    have hold : ((s.setFile i ⟨.redirect, fd, 0⟩).mark i true).ActsOn fd opening := by
      refine ActsOn.congr h fun n _ x _ hopen => ?_
      have hxi := freeSlot_ne hok hfree hopen
      exact ⟨update_of_ne hxi .., update_of_ne hxi ..⟩
    rcases ActsOn.slot hold with ⟨fuel, n, j, hn, hloop, hopening⟩
    have hi : i < vfsMaxFileNum := by
      have hlt := (freeSlot_some hfree).1
      omega
    have hnew : vfsFileGet2 ((s.setFile i ⟨.redirect, fd, 0⟩).mark i true) (vfsFdGet i) = some i :=
      get2_eq_some.mpr ⟨slotOf_fdGet hi, update_self ..⟩
    have hfile : ((s.setFile i ⟨.redirect, fd, 0⟩).mark i true).file i = ⟨.redirect, fd, 0⟩ :=
      update_self ..
    have hrange : 0 ≤ fd-vfsFdOffset := by
      have hslot := (get2_eq_some.mp hget).1
      unfold slotOf at hslot
      split_ifs at hslot with hrange
      exact hrange.1
    refine ⟨fuel+1, j, ?_, hopening⟩
    rw [vfsFileGet, hnew]
    dsimp only
    rw [redirectLoop, hfile, if_pos hrange, hn]
    exact hloop

/-- Along calls that do not close the descriptor itself, it keeps its file all the way if and
only if no descriptor on its chain is closed. -/
theorem run_actsOn_iff : ∀ {calls : List Call} {s : Files}, s.Ok → s.ActsOn d opening →
    (∀ ret, Call.close d ret ∉ calls) →
    (Along Files.step (fun s c => ∀ s', s.step c = some s' → s'.ActsOn d opening) s calls ↔
      Along Files.step (fun s c => ∀ fd ret, c = .close fd ret → ¬s.OnChain d fd) s calls)
  | [], _, _, _, _ => Iff.rfl
  | c :: calls, s, hok, h, hd => by
    have hc : ∀ ret, c ≠ .close d ret := fun ret heq => hd ret (heq ▸ mem_cons_self)
    have hrest : ∀ ret, Call.close d ret ∉ calls := fun ret hmem =>
      hd ret (mem_cons_of_mem c hmem)
    have hsome : ∃ t, s.step c = some t := by
      cases c <;> exact ⟨_, rfl⟩
    rcases hsome with ⟨t, ht⟩
    have hiff := step_actsOn_iff hok h ht hc
    constructor
    · rintro ⟨hkept, hlater⟩
      have ht' : t.ActsOn d opening := hkept t ht
      refine ⟨hiff.mp ht', fun u hu => ?_⟩
      cases Option.some.inj (ht.symm.trans hu)
      exact (run_actsOn_iff (hok.step ht) ht' hrest).mp (hlater t ht)
    · rintro ⟨hcond, hlater⟩
      have ht' : t.ActsOn d opening := hiff.mpr hcond
      refine ⟨fun u hu => ?_, fun u hu => ?_⟩ <;> cases Option.some.inj (ht.symm.trans hu)
      · exact ht'
      · exact (run_actsOn_iff (hok.step ht) ht' hrest).mpr (hlater t ht)

end Keeps

/-- A duplicate acts on the file of the old descriptor right after `vfs_dup`, and it keeps this
file through any calls that do not close it if and only if none of them closes a descriptor that
is on its chain at the time. -/
theorem dup_keeps_file_iff {before : List Call} {s s' : Files}
    (hrun : run Files.step Files.init before = some s) {fd d : ℤ} (hdup : vfsDup s fd = (s', d))
    (hd : 0 ≤ d) {opening : ℕ} (hfile : s.ActsOn fd opening) {calls : List Call}
    (hopen : ∀ ret, Call.close d ret ∉ calls) :
    s'.ActsOn d opening ∧
      (Along Files.step (fun s c => ∀ s', s.step c = some s' → s'.ActsOn d opening) s' calls ↔
        Along Files.step (fun s c => ∀ fd ret, c = .close fd ret → ¬s.OnChain d fd) s' calls) := by
  have hok := Files.Ok.run hrun
  have hacts := dup_actsOn hok hdup hd hfile
  have hok' : s'.Ok := by
    refine hok.step (c := .dup fd) ?_
    rw [Files.step, hdup]
  exact ⟨hacts, run_actsOn_iff hok' hacts hopen⟩

/-- One file is open. -/
def sampleFiles : Files := (vfsOpen Files.init (some 0) 0).1

/-- A duplicate of it keeps the file while another file is opened and closed. -/
theorem dup_keeps_file_sample :
    (vfsDup sampleFiles 48).1.ActsOn 49 0 ∧
      (Along Files.step (fun s c => ∀ s', s.step c = some s' → s'.ActsOn 49 0)
          (vfsDup sampleFiles 48).1 [.openFile (some 1) 0, .close 50 0] ↔
        Along Files.step (fun s c => ∀ fd ret, c = .close fd ret → ¬s.OnChain 49 fd)
          (vfsDup sampleFiles 48).1 [.openFile (some 1) 0, .close 50 0]) := by
  have hrun : run Files.step Files.init [.openFile (some 0) 0] = some sampleFiles := rfl
  have hdup : vfsDup sampleFiles 48 = ((vfsDup sampleFiles 48).1, 49) := by
    refine Prod.ext rfl ?_
    decide +kernel
  have hfile : sampleFiles.ActsOn 48 0 := ⟨1, 0, by decide +kernel, by decide +kernel⟩
  have hnot : ∀ ret, Call.close 49 ret ∉ [.openFile (some 1) 0, .close 50 0] := by
    intro ret hmem
    simp only [mem_cons, not_mem_nil, or_false, reduceCtorEq, Call.close.injEq,
      false_or] at hmem
    exact absurd hmem.1 (by decide)
  exact dup_keeps_file_iff hrun hdup (by decide) hfile hnot

/-- The old descriptor is closed: its slot is taken by another file, or by a duplicate of the
duplicate. -/
def reuseCalls (last : Call) : List Call := [.openFile (some 0) 0, .dup 48, .close 48 0, last]

/-- After the first calls the duplicate acts on the second file instead of the first one; after
the other ones an operation on it does not return. -/
theorem dup_loses_file :
    (∃ s, run Files.step Files.init ((reuseCalls (.dup 49)).take 2) = some s ∧ s.ActsOn 49 0) ∧
    (∃ s, run Files.step Files.init (reuseCalls (.openFile (some 1) 0)) = some s ∧
      s.ActsOn 49 1) ∧
    (∃ s, run Files.step Files.init (reuseCalls (.dup 49)) = some s ∧
      ∀ fuel, vfsFileGet s fuel 49 = none) := by
  refine ⟨⟨_, rfl, 2, 0, by decide +kernel, by decide +kernel⟩,
    ⟨_, rfl, 2, 0, by decide +kernel, by decide +kernel⟩, ⟨_, rfl, fun fuel => ?_⟩⟩
  exact (redirectLoop_cycle (i := 1) (j := 0) (by decide +kernel) (by decide +kernel)
    (by decide +kernel) (by decide +kernel) fuel).1

/-- `vfs_dup2` does what it is for: the new descriptor is returned, the file that was open under
it is closed once, and it then acts on the file of the old one. -/
def Dup2Redirects (s : Files) (oldfd newfd ret : ℤ) : Prop :=
  ∃ fuel s', vfsDup2 s fuel oldfd newfd ret = some (s', newfd) ∧
    (∀ opening, s.ActsOn newfd opening → s'.closings = s.closings ++ [opening]) ∧
    ∀ opening, s.ActsOn oldfd opening → s'.ActsOn newfd opening

section Dup2

variable {s s' : Files} {oldfd newfd ret : ℤ} {n fuel : ℕ}

/-- Once nothing is open under the new descriptor, it is not found. -/
theorem redirectTo_closed (hslot : slotOf newfd = some n) (hclosed : s.opened n = false) :
    redirectTo s oldfd newfd = (s, -1) := by
  have hget : vfsFileGet2 s newfd = none := by
    rw [vfsFileGet2, hslot, Option.bind_some, hclosed]
    rfl
  rw [redirectTo, hget]

theorem closeWithoutGlock_closes (hslot : slotOf newfd = some n)
    (h : vfsCloseWithoutGlock s fuel newfd ret = some (s', 0)) : s'.opened n = false := by
  rcases Option.map_eq_some_iff.mp h with ⟨f, -, hres⟩
  cases f with
  | none =>
    have herr : vfsErrNoent = 0 := congrArg Prod.snd hres
    exact absurd herr (by decide)
  | some i =>
    rw [hslot] at hres
    cases hres
    exact update_self ..

/-- The redirection of a descriptor in the range always fails. -/
theorem setNormalRedirectFd_fails (hslot : slotOf newfd = some n) {r : Files × ℤ}
    (h : setNormalRedirectFd s fuel oldfd newfd ret = some r) : r.2 = -1 := by
  revert h
  fun_cases setNormalRedirectFd s fuel oldfd newfd ret with
  | case1 =>
    rintro ⟨⟩
    rfl
  | case2 _ _ hnew =>
    have hclosed : s.opened n = false := by
      by_contra hopen
      have hsome := get2_eq_some.mpr ⟨hslot, Bool.of_not_eq_false hopen⟩
      rw [hnew] at hsome
      cases hsome
    rw [redirectTo_closed hslot hclosed]
    rintro ⟨⟩
    rfl
  | case3 =>
    intro h
    rcases Option.map_eq_some_iff.mp h with ⟨⟨t, code⟩, hclose, hres⟩
    split_ifs at hres with hcode
    · cases hres
      rfl
    · cases not_not.mp hcode
      rw [redirectTo_closed hslot (closeWithoutGlock_closes hslot hclose)] at hres
      cases hres
      rfl

end Dup2

/-- For every table of files and every descriptor number in the range `vfs_dup2` fails, if it
returns at all. -/
theorem vfsDup2_never_redirects (s : Files) (oldfd ret : ℤ) {newfd : ℤ} {n : ℕ}
    (hnew : slotOf newfd = some n) : ¬Dup2Redirects s oldfd newfd ret := by
  rintro ⟨fuel, s', hdup, -⟩
  rcases Option.map_eq_some_iff.mp hdup with ⟨r, hr, hres⟩
  have hret : (if 0 ≤ r.2 then newfd else vfsErrGeneral) = newfd := congrArg Prod.snd hres
  rw [setNormalRedirectFd_fails hnew hr, if_neg (by decide)] at hret
  rw [← hret] at hnew
  cases hnew

theorem vfsDup2_never_redirects_sample :
    slotOf 49 = some 1 ∧ ¬Dup2Redirects sampleFiles 48 49 0 :=
  ⟨by decide +kernel, vfsDup2_never_redirects sampleFiles 48 0 (n := 1) (by decide +kernel)⟩

/-- Two files are open. -/
def samplePair : Files := (vfsOpen sampleFiles (some 1) 0).1

/-- The new descriptor is open: its file is closed, and the call fails. It is not open: the call
fails. -/
theorem vfsDup2_fails_sample :
    (vfsDup2 samplePair 1 48 49 0).map (fun r => (r.2, r.1.closings, r.1.opened 1)) =
      some (vfsErrGeneral, [1], false) ∧
    (vfsDup2 samplePair 1 48 60 0).map (fun r => (r.2, r.1.closings, r.1.opened 12)) =
      some (vfsErrGeneral, [], false) := by
  decide +kernel

end PineVoice.VfsFile
