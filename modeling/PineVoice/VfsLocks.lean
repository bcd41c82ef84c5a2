import PineVoice.VfsUnregister

/-!
# The locks of the calls

A call gives back each lock it has taken, and only those, with two exceptions. A call that reads,
writes or controls a file whose node has been unregistered unlocks the node twice. To redirect a
standard stream to a descriptor that is not open unlocks the file system and leaves the lock of
the streams taken.
-/

namespace PineVoice.VfsSys

open LockTrace Transition Vfs VfsFile Option

section Traces

variable {s : Sys} {fuel i k : ℕ} {fd ret : ℤ} {path : Path} {op : Op} {other : ℤ}

theorem neutral_locked (l : Lock) : Neutral (O := OpCall) (locked l []) := neutral_nil.locked

theorem neutral_op (l : Lock) (c : OpCall) : Neutral (locked l [.other c]) := by
  have hop : Neutral (L := Lock) ([c].map Event.other) := neutral_other
  exact hop.locked

theorem inodeUnref_neutral (s : Sys) (k : ℕ) : Neutral (vfsInodeUnref s k).2 := by
  unfold vfsInodeUnref
  split_ifs
  · exact (neutral_locked _).append neutral_destroy
  · exact neutral_locked _

theorem fileDel_neutral (s : Sys) (i : ℕ) : Neutral (vfsFileDel s i).2 := by
  show Neutral (fileUnref s i).2
  unfold fileUnref
  cases (s.files.file i).node with
  | null => exact neutral_nil
  | redirect => exact neutral_nil
  | inode k => exact inodeUnref_neutral s k

theorem openDriver_neutral (s : Sys) (k i : ℕ) (ret : ℤ) : Neutral (openDriver s k i ret).1 := by
  unfold openDriver
  split_ifs
  · exact neutral_op _ _
  · exact neutral_locked _

theorem closeDriver_neutral (s : Sys) (k i : ℕ) (ret : ℤ) : Neutral (closeDriver s k i ret).1 := by
  unfold closeDriver
  split_ifs
  · exact neutral_op _ _
  · exact neutral_locked _

theorem openEnd_neutral (s : Sys) (i : ℕ) (ret : ℤ) : Neutral (openEnd s i ret).trace := by
  unfold openEnd
  split_ifs
  · exact (fileDel_neutral s i).locked
  · exact neutral_locked _

theorem vfsOpen_neutral (s : Sys) (path : Path) (ret : ℤ) : Neutral (vfsOpen s path ret).trace := by
  unfold vfsOpen
  split_ifs
  · exact neutral_nil
  · rcases openBegin_cases s path with ⟨err, heq⟩ | ⟨k, i, t, trace, -, hnew, heq⟩ <;> rw [heq]
    · exact neutral_locked _
    · have htrace : Neutral trace := by
        rcases Option.map_eq_some_iff.mp hnew with ⟨i', -, hr⟩
        cases hr
        exact neutral_locked _
      exact (htrace.locked.append (openDriver_neutral t k i ret)).append (openEnd_neutral _ _ _)

theorem vfsRegister_neutral (type : NodeType) (s : Sys) (path : Path) :
    Neutral (vfsRegister type s path).trace := by
  rw [vfsRegister_trace]
  exact neutral_locked _

theorem closeFile_neutral (s : Sys) (fd : ℤ) (i : ℕ) : Neutral (closeFile s fd i).2 :=
  fileDel_neutral _ i

theorem clearNormalRedirectFd_neutral (s : Sys) (fd : ℤ) :
    Neutral (clearNormalRedirectFd s fd).trace := by
  unfold clearNormalRedirectFd
  cases vfsFileGet2 s.files fd <;> exact neutral_locked _

end Traces

/-- The lookup of a descriptor ends at nothing, or at a file whose node meets a condition. -/
def Sys.Finds (s : Sys) (ok : ℕ → Prop) (fd : ℤ) : Prop :=
  ∃ fuel f, vfsFileGet s.files fuel fd = some f ∧
    ∀ i, f = some i → ∃ k, (s.files.file i).node = .inode k ∧ ok k

/-- The lookup of a descriptor ends at nothing, or at a file whose node is valid. -/
def Sys.Serves (s : Sys) (fd : ℤ) : Prop := s.Finds (fun k => (s.slot k).valid = true) fd

section Calls

variable {s : Sys} {fd : ℤ} {path : Path}

/-- What `vfs_read`, `vfs_write` and `vfs_ioctl` have in common. -/
theorem access_balanced_iff (op : Op) (other : ℤ) (s : Sys) (fd ret : ℤ) :
    (∃ fuel r, access op other s fuel fd ret = some r ∧ BalancedTrace r.1) ↔ s.Serves fd := by
  constructor
  · rintro ⟨fuel, r, hr, hbalanced⟩
    rcases Option.bind_eq_some_iff.mp hr with ⟨f, hget, hf⟩
    refine ⟨fuel, f, hget, fun i hi => ?_⟩
    rw [hi] at hf
    dsimp only at hf
    cases hnode : (s.files.file i).node with
    | inode k =>
      rw [hnode] at hf
      cases hf
      refine ⟨k, rfl, ?_⟩
      by_contra hinvalid
      rw [if_neg hinvalid] at hbalanced
      exact (neutral_locked (.node k)).not_balanced hbalanced
    | null | redirect =>
      rw [hnode] at hf
      cases hf
  · rintro ⟨fuel, f, hget, hf⟩
    refine ⟨fuel, ?_⟩
    rw [access, hget, bind_some]
    cases f with
    | none => exact ⟨_, rfl, neutral_nil.balanced⟩
    | some i =>
      rcases hf i rfl with ⟨k, hnode, hvalid⟩
      dsimp only
      rw [hnode]
      refine ⟨_, rfl, ?_⟩
      rw [if_pos hvalid]
      exact (neutral_op _ _).balanced

theorem vfsWrite_balanced_iff (s : Sys) (fd nbytes ret : ℤ) :
    (∃ fuel r, vfsWrite s fuel fd nbytes ret = some r ∧ BalancedTrace r.1) ↔
      if fd = 1 ∨ fd = 2 then 0 ≤ s.stdio fd → s.Serves (s.stdio fd) else s.Serves fd := by
  unfold vfsWrite
  by_cases hstream : fd = 1 ∨ fd = 2
  · simp only [if_pos hstream]
    by_cases hredirect : 0 ≤ s.stdio fd
    · simp only [hredirect, forall_true_left]
      rw [← access_balanced_iff .writes (-1) s (s.stdio fd) ret]
      constructor
      · rintro ⟨fuel, r, hr, hbalanced⟩
        rcases Option.map_eq_some_iff.mp hr with ⟨r', hr', rfl⟩
        exact ⟨fuel, r', hr', (neutral_locked .stdio).append_balanced.mp hbalanced⟩
      · rintro ⟨fuel, r, hr, hbalanced⟩
        exact ⟨fuel, _, Option.map_eq_some_iff.mpr ⟨r, hr, rfl⟩,
          (neutral_locked .stdio).append_balanced.mpr hbalanced⟩
    · simp only [hredirect, false_imp_iff, iff_true]
      exact ⟨0, _, rfl, (neutral_locked _).balanced⟩
  · simp only [if_neg hstream]
    exact access_balanced_iff .writes (-1) s fd ret

theorem vfsIoctl_balanced_iff (s : Sys) (fd ret : ℤ) :
    (∃ fuel r, vfsIoctl s fuel fd ret = some r ∧ BalancedTrace r.1) ↔ (0 ≤ fd → s.Serves fd) := by
  unfold vfsIoctl
  by_cases hneg : fd < 0
  · simp only [if_pos hneg]
    exact ⟨fun _ hfd => absurd hneg (Int.not_lt.mpr hfd),
      fun _ => ⟨0, _, rfl, neutral_nil.balanced⟩⟩
  · simp only [if_neg hneg, Int.not_lt.mp hneg, forall_true_left]
    exact access_balanced_iff .ioctls vfsErrNosys s fd ret

/-- `vfs_close` gives back what it takes, unless it follows a `-1`. -/
theorem vfsClose_balanced_iff (s : Sys) (fd ret : ℤ) :
    (∃ r, vfsClose s fd ret = some r ∧ BalancedTrace r.trace) ↔
      (¬isStdioFd fd → ∀ i, closeBegin s fd = .begun i → (s.files.file i).node ≠ .redirect) := by
  unfold vfsClose
  by_cases hstdio : isStdioFd fd
  · simp only [hstdio, not_true_eq_false, false_imp_iff, iff_true]
    exact ⟨_, rfl, (neutral_locked _).balanced⟩
  · simp only [hstdio, not_false_eq_true, forall_true_left]
    cases hbegin : closeBegin s fd with
    | failed => exact ⟨fun _ _ h => (nomatch h), fun _ => ⟨_, rfl, (neutral_locked _).balanced⟩⟩
    | redirected =>
      refine ⟨fun _ _ h => (nomatch h), fun _ => ⟨_, rfl, ?_⟩⟩
      exact ((neutral_locked _).append (clearNormalRedirectFd_neutral s fd)).balanced
    | begun i =>
      cases hnode : (s.files.file i).node with
      | null => exact absurd hnode (closeBegin_begun hbegin).2.2
      | redirect =>
        refine ⟨fun ⟨r, hr, _⟩ => ?_, fun h => absurd hnode (h i rfl)⟩
        dsimp only at hr
        rw [hnode] at hr
        cases hr
      | inode k =>
        refine ⟨fun _ j hj => ?_, fun _ => ?_⟩
        · cases hj
          rw [hnode]
          exact nofun
        · dsimp only
          rw [hnode]
          exact ⟨_, rfl, (((neutral_locked _).append (closeDriver_neutral s k i ret)).append
            (closeFile_neutral s fd i).locked).balanced⟩

/-- `vfs_close_without_glock` comes back if the lookup does. -/
theorem vfsCloseWithoutGlock_returns_iff (s : Sys) (fd ret : ℤ) :
    (∃ fuel r, vfsCloseWithoutGlock s fuel fd ret = some r) ↔ s.Finds (fun _ => True) fd := by
  constructor
  · rintro ⟨fuel, r, hr⟩
    rcases Option.bind_eq_some_iff.mp hr with ⟨f, hget, hf⟩
    refine ⟨fuel, f, hget, fun i hi => ?_⟩
    rw [hi] at hf
    dsimp only at hf
    cases hnode : (s.files.file i).node with
    | inode k => exact ⟨k, rfl, trivial⟩
    | null | redirect =>
      rw [hnode] at hf
      cases hf
  · rintro ⟨fuel, f, hget, hf⟩
    refine ⟨fuel, ?_⟩
    rw [vfsCloseWithoutGlock, hget, bind_some]
    cases f with
    | none => exact ⟨_, rfl⟩
    | some i =>
      rcases hf i rfl with ⟨k, hnode, -⟩
      dsimp only
      rw [hnode]
      exact ⟨_, rfl⟩

theorem vfsCloseWithoutGlock_neutral {fuel : ℕ} {ret : ℤ} {r : Outcome}
    (h : vfsCloseWithoutGlock s fuel fd ret = some r) : Neutral r.trace := by
  rcases Option.bind_eq_some_iff.mp h with ⟨f, -, hf⟩
  cases f with
  | none =>
    cases hf
    exact neutral_nil
  | some i =>
    dsimp only at hf
    cases hnode : (s.files.file i).node with
    | inode k =>
      rw [hnode] at hf
      cases hf
      exact (closeDriver_neutral s k i ret).append (closeFile_neutral s fd i)
    | null | redirect =>
      rw [hnode] at hf
      cases hf

/-- A descriptor is open. -/
def Sys.IsOpen (s : Sys) (fd : ℤ) : Prop := (vfsFileGet2 s.files fd).isSome = true

/-- Whether `vfs_dup2` gives back what it takes. -/
def Sys.Dup2Balances (s : Sys) (oldfd newfd : ℤ) : Prop :=
  if isStdioFd newfd then s.IsOpen oldfd
  else s.IsOpen oldfd → s.IsOpen newfd → s.Finds (fun _ => True) newfd

theorem stdio_unbalanced : ¬BalancedTrace (O := OpCall) [.lock Lock.stdio, .unlock .vfs] := by
  decide

theorem vfsDup2_balanced_iff (s : Sys) (oldfd newfd ret : ℤ) :
    (∃ fuel r, vfsDup2 s fuel oldfd newfd ret = some r ∧ BalancedTrace r.trace) ↔
      s.Dup2Balances oldfd newfd := by
  unfold vfsDup2 Sys.Dup2Balances Sys.IsOpen
  by_cases hstdio : isStdioFd newfd
  · simp only [hstdio]
    unfold setStdioRedirectFd
    cases hold : vfsFileGet2 s.files oldfd with
    | none =>
      refine ⟨?_, nofun⟩
      rintro ⟨fuel, r, hr, hbalanced⟩
      cases hr
      exact absurd hbalanced stdio_unbalanced
    | some i => exact ⟨fun _ => rfl, fun _ => ⟨0, _, rfl, (neutral_locked .stdio).balanced⟩⟩
  · simp only [hstdio]
    unfold setNormalRedirectFd
    cases hold : vfsFileGet2 s.files oldfd with
    | none => exact ⟨fun _ => nofun, fun _ => ⟨0, _, rfl, (neutral_locked .vfs).balanced⟩⟩
    | some i =>
      cases hnew : vfsFileGet2 s.files newfd with
      | none => exact ⟨fun _ _ => nofun, fun _ => ⟨0, _, rfl, (neutral_locked .vfs).balanced⟩⟩
      | some j =>
        simp only [isSome_some, forall_true_left]
        rw [← vfsCloseWithoutGlock_returns_iff s newfd ret]
        constructor
        · rintro ⟨fuel, r, hr, -⟩
          rcases Option.map_eq_some_iff.mp hr with ⟨r', hr', -⟩
          rcases Option.map_eq_some_iff.mp hr' with ⟨r'', hr'', -⟩
          exact ⟨fuel, r'', hr''⟩
        · rintro ⟨fuel, r, hr⟩
          have hneutral := (vfsCloseWithoutGlock_neutral hr).locked (l := Lock.vfs)
          refine ⟨fuel, ?_⟩
          rw [hr, map_some]
          refine ⟨_, rfl, ?_⟩
          split_ifs <;> exact hneutral.balanced

/-- An unregistration gives back what it takes, if it comes back. -/
theorem vfsUnregister_balanced_iff (s : Sys) (path : Path) :
    (∃ fuel r, vfsUnregister s fuel path = some r ∧ BalancedTrace r.trace) ↔
      ∀ k, vfsInodeOpen s.nodes path = some k → 0 < (s.slot k).refs →
        ∀ m : ℕ, m < vfsMaxFileNum → Ends s.files m := by
  cases hnode : vfsInodeOpen s.nodes path with
  | none =>
    have hr : vfsUnregister s 0 path = some ⟨s, locked .vfs [], vfsErrNodev⟩ := by
      rw [vfsUnregister, hnode]
    refine ⟨fun _ k hk => ?_, fun _ => ⟨0, _, hr, (neutral_locked .vfs).balanced⟩⟩
    cases hk
  | some k =>
    by_cases hrefs : 0 < (s.slot k).refs
    · constructor
      · rintro ⟨fuel, r, hr, -⟩ k' hk' - m hm
        exact ⟨fuel, (vfsUnregister_trace hnode hrefs hr).1 m hm⟩
      · intro hends
        rcases vfsUnregister_returns hnode hrefs (hends k rfl hrefs) with
          ⟨fuel, r, closes, hr, htrace⟩
        refine ⟨fuel, r, hr, ?_⟩
        rw [htrace]
        exact neutral_other.locked.locked.balanced
    · refine ⟨fun _ k' hk' hrefs' => ?_, fun _ => ⟨0, ?_⟩⟩
      · cases hk'
        exact absurd hrefs' hrefs
      · rw [vfsUnregister, hnode]
        dsimp only
        rw [vfsInodeDel, if_neg hrefs]
        exact ⟨_, rfl, neutral_destroy.locked.balanced⟩

end Calls

/-- The calls that give back each lock they take, once, and no other: the node of a file that is
read, written or controlled is valid, a standard stream is redirected to an open descriptor, and
the lookups of the call come to an end and do not end at a `-1`. -/
def Sys.Balances (s : Sys) : Call → Prop
  | .registerDriver _ | .registerFs _ | .openFile _ _ | .dup _ => True
  | .unregisterDriver path | .unregisterFs path =>
    ∀ k, vfsInodeOpen s.nodes path = some k → 0 < (s.slot k).refs →
      ∀ m : ℕ, m < vfsMaxFileNum → Ends s.files m
  | .close fd _ =>
    ¬isStdioFd fd → ∀ i, closeBegin s fd = .begun i → (s.files.file i).node ≠ .redirect
  | .read fd _ => s.Serves fd
  | .write fd _ _ =>
    if fd = 1 ∨ fd = 2 then 0 ≤ s.stdio fd → s.Serves (s.stdio fd) else s.Serves fd
  | .ioctl fd _ => 0 ≤ fd → s.Serves fd
  | .dup2 oldfd newfd _ => s.Dup2Balances oldfd newfd

/-- A result of an operation that leaves the state alone. -/
theorem map_outcome_iff {s : Sys} {f : ℕ → Option (Trace × ℤ)} {p : Trace → Prop} :
    (∃ fuel r, (f fuel).map (fun r => Outcome.mk s r.1 r.2) = some r ∧ p r.trace) ↔
      ∃ fuel r, f fuel = some r ∧ p r.1 := by
  constructor
  · rintro ⟨fuel, r, hr, hp⟩
    rcases Option.map_eq_some_iff.mp hr with ⟨r', hr', rfl⟩
    exact ⟨fuel, r', hr', hp⟩
  · rintro ⟨fuel, r, hr, hp⟩
    exact ⟨fuel, _, Option.map_eq_some_iff.mpr ⟨r, hr, rfl⟩, hp⟩

/-- For every state and every call: it returns and has given back each lock it took, once, and no
other, if and only if it is one of these calls. -/
theorem call_balanced_iff (s : Sys) (c : Call) :
    (∃ fuel r, s.call fuel c = some r ∧ BalancedTrace r.trace) ↔ s.Balances c := by
  cases c with
  | registerDriver path =>
    exact iff_of_true ⟨0, _, rfl, (vfsRegister_neutral .char s path).balanced⟩ trivial
  | registerFs path =>
    exact iff_of_true ⟨0, _, rfl, (vfsRegister_neutral .fs s path).balanced⟩ trivial
  | unregisterDriver path => exact vfsUnregister_balanced_iff s path
  | unregisterFs path => exact vfsUnregister_balanced_iff s path
  | openFile path ret =>
    exact iff_of_true ⟨0, _, rfl, (vfsOpen_neutral s path ret).balanced⟩ trivial
  | close fd ret =>
    refine Iff.trans ?_ (vfsClose_balanced_iff s fd ret)
    exact ⟨fun ⟨_, h⟩ => h, fun h => ⟨0, h⟩⟩
  | read fd ret => exact map_outcome_iff.trans (access_balanced_iff .reads (-1) s fd ret)
  | write fd nbytes ret => exact map_outcome_iff.trans (vfsWrite_balanced_iff s fd nbytes ret)
  | ioctl fd ret => exact map_outcome_iff.trans (vfsIoctl_balanced_iff s fd ret)
  | dup oldfd => exact iff_of_true ⟨0, _, rfl, (neutral_locked .vfs).balanced⟩ trivial
  | dup2 oldfd newfd ret => exact vfsDup2_balanced_iff s oldfd newfd ret

/-- A file is read whose driver has been unregistered: its node is unlocked twice. Standard output
is redirected to a descriptor that is not open: the wrong lock is given back. -/
theorem call_unbalanced :
    (∃ s, run (Sys.step 1) Sys.init (openCalls ++ [.unregisterDriver ['/', 'a']]) = some s ∧
      (s.call 1 (.read 48 0)).map Outcome.trace =
        some [.lock (.node 0), .unlock (.node 0), .unlock (.node 0)] ∧
      ¬∃ fuel r, s.call fuel (.read 48 0) = some r ∧ BalancedTrace r.trace) ∧
    (oneFile.call 1 (.dup2 60 1 0)).map Outcome.trace = some [.lock .stdio, .unlock .vfs] ∧
    ¬∃ fuel r, oneFile.call fuel (.dup2 60 1 0) = some r ∧ BalancedTrace r.trace := by
  refine ⟨?_, by decide +kernel, ?_⟩
  · obtain ⟨s, hrun, htrace, hget, hnode, hinvalid⟩ : ∃ s, run (Sys.step 1) Sys.init
        (openCalls ++ [.unregisterDriver ['/', 'a']]) = some s ∧
        (s.call 1 (.read 48 0)).map Outcome.trace =
          some [.lock (.node 0), .unlock (.node 0), .unlock (.node 0)] ∧
        vfsFileGet s.files 1 48 = some (some 0) ∧ (s.files.file 0).node = .inode 0 ∧
        (s.slot 0).valid = false := by
      decide +kernel
    refine ⟨s, hrun, htrace, fun hread => ?_⟩
    rcases (access_balanced_iff .reads (-1) s 48 0).mp (map_outcome_iff.mp hread) with
      ⟨fuel, f, hget', hf⟩
    rcases hf 0 ((leads_iff hget').mp ⟨1, hget⟩) with ⟨k, hnode', hvalid⟩
    cases hnode.symm.trans hnode'
    rw [hinvalid] at hvalid
    cases hvalid
  · rintro ⟨fuel, r, hr, hbalanced⟩
    cases hr
    exact stdio_unbalanced hbalanced

end PineVoice.VfsSys
