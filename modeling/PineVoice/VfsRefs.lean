import PineVoice.VfsSys

/-!
# The reference counts of the nodes

The references of a node are counted up when a slot of the file table gets the node and down when
the slot loses it, both in one section under the lock of the file system. So they agree with the
file table between any two sections, however the sections of different tasks follow each other.
-/

namespace PineVoice.VfsSys

open Function LockTrace Transition Vfs VfsFile List

section Entries

/-- What a file contributes to the references of a node. -/
def onNode (k : ℕ) (f : File) : Bool := f.node = .inode k

/-- The number of entries of the file table whose node is the given one. -/
def entries (s : Files) (k : ℕ) : ℕ :=
  (List.range vfsMaxFileNum).countP fun i => onNode k (s.file i)

/-- A count changes by what changes at one place. -/
theorem countP_range_update {p q : ℕ → Bool} {i : ℕ} (hsame : ∀ j, j ≠ i → q j = p j) :
    ∀ {n : ℕ}, i < n → (List.range n).countP q+(p i).toNat = (List.range n).countP p+(q i).toNat
  | n+1, hi => by
    have hone : ∀ r : ℕ → Bool,
        (List.range (n+1)).countP r = (List.range n).countP r+(r n).toNat := fun r => by
      rw [range_succ, countP_append, countP_singleton]
      cases r n <;> rfl
    rw [hone p, hone q]
    rcases Nat.eq_or_lt_of_le (Nat.le_of_lt_succ hi) with rfl | hless
    · have hrest : (List.range i).countP q = (List.range i).countP p :=
        countP_congr fun j hj => by
          rw [hsame j (Nat.ne_of_lt (List.mem_range.mp hj))]
      omega
    · have hlast := hsame n (Nat.ne_of_gt hless)
      have hrest := countP_range_update hsame hless
      rw [hlast]
      omega

variable {s : Files} {i k : ℕ}

/-- A slot is set. -/
theorem entries_setFile (hi : i < vfsMaxFileNum) (f : File) (k : ℕ) :
    entries (s.setFile i f) k+(onNode k (s.file i)).toNat = entries s k+(onNode k f).toNat := by
  have hcount := countP_range_update (p := fun j => onNode k (s.file j))
    (q := fun j => onNode k ((s.setFile i f).file j)) (i := i)
    (fun j hj => congrArg (onNode k) (update_of_ne hj ..)) hi
  have hnew : (s.setFile i f).file i = f := update_self ..
  rwa [hnew] at hcount

/-- A node has at most all slots. -/
theorem entries_le (s : Files) (k : ℕ) : entries s k ≤ vfsMaxFileNum := by
  have hle := countP_le_length (p := fun i => onNode k (s.file i))
    (l := List.range vfsMaxFileNum)
  rwa [length_range] at hle

/-- An entry is counted. -/
theorem entries_pos (hi : i < vfsMaxFileNum) (hnode : (s.file i).node = .inode k) :
    0 < entries s k :=
  List.countP_pos_iff.mpr ⟨i, List.mem_range.mpr hi, decide_eq_true hnode⟩

/-- No slot is taken yet. -/
theorem entries_init (k : ℕ) : entries Files.init k = 0 :=
  List.countP_eq_zero.mpr fun _ _ h => nomatch of_decide_eq_true h

end Entries

/-- The references agree with the file table. -/
def Sys.Counted (s : Sys) : Prop := ∀ k, (s.slot k).refs = entries s.files k

section Sections

variable {s t : Sys} {i j k : ℕ} {trace : Trace} {fd : ℤ} {path : Path}

/-- A mark leaves the nodes. -/
@[simp]
theorem mark_slot (s : Sys) (fd : ℤ) (b : Bool) : (s.mark fd b).slot = s.slot := by
  unfold Sys.mark
  cases slotOf fd <;> rfl

/-- It leaves the files. -/
@[simp]
theorem mark_file (s : Sys) (fd : ℤ) (b : Bool) : (s.mark fd b).files.file = s.files.file := by
  unfold Sys.mark
  cases slotOf fd <;> rfl

/-- Only references and files count. -/
theorem Sys.Counted.congr (h : s.Counted) (hslot : ∀ k, (t.slot k).refs = (s.slot k).refs)
    (hfile : t.files.file = s.files.file) : t.Counted := by
  intro k
  rw [hslot, h k, entries, entries, hfile]

/-- A mark keeps the count. -/
theorem Sys.Counted.mark (h : s.Counted) (fd : ℤ) (b : Bool) : (s.mark fd b).Counted :=
  h.congr (fun k => by rw [mark_slot]) (mark_file s fd b)

/-- The references after a slot is set. -/
theorem setSlot_refs (s : Sys) (k : ℕ) (x : Slot) (m : ℕ) :
    ((s.setSlot k x).slot m).refs = if m = k then x.refs else (s.slot m).refs := by
  show (update s.slot k x m).refs = _
  rw [update_apply]
  split_ifs <;> rfl

/-- A slot of a node is set without a change of its references. -/
theorem Sys.Counted.setSlot (h : s.Counted) {x : Slot} (hx : x.refs = (s.slot k).refs) :
    (s.setSlot k x).Counted := by
  refine h.congr (fun m => ?_) rfl
  rw [setSlot_refs]
  split_ifs with hm
  · rw [hx, hm]
  · rfl

/-- A reference is given back. -/
theorem unref_refs (s : Sys) (k m : ℕ) :
    ((vfsInodeUnref s k).1.slot m).refs = if m = k then (s.slot k).refs-1 else (s.slot m).refs := by
  unfold vfsInodeUnref
  dsimp only
  split_ifs with hfree hm hm
  · rw [inodeFree, setSlot_refs, if_pos hm, setSlot_refs, if_pos rfl]
  · rw [inodeFree, setSlot_refs, if_neg hm, setSlot_refs, if_neg hm]
  · rw [setSlot_refs, if_pos hm]
  · rw [setSlot_refs, if_neg hm]

/-- A file gets the free slot, and its node a reference. -/
theorem fileNew_slot (h : vfsFileNew s k = some (i, t, trace)) :
    i < vfsMaxFileNum ∧ (s.files.file i).node = .null ∧ t = (vfsInodeRef (s.enter k i) k).1 := by
  rcases Option.map_eq_some_iff.mp h with ⟨i', hfree, heq⟩
  cases heq
  have hslot := freeSlot_some hfree
  exact ⟨by omega, hslot.2, rfl⟩

/-- A free slot gets a node. -/
theorem entries_enter (hi : i < vfsMaxFileNum) (hnull : (s.files.file i).node = .null) (m : ℕ) :
    entries (s.enter k i).files m = entries s.files m+if m = k then 1 else 0 := by
  have hcount := entries_setFile (s := s.files) hi ⟨.inode k, -1, s.files.openings⟩ m
  have hold : onNode m (s.files.file i) = false := by
    rw [onNode, hnull]
    rfl
  have hnew : onNode m ⟨.inode k, -1, s.files.openings⟩ = decide (m = k) := by
    rw [onNode, decide_eq_decide, FileNode.inode.injEq]
    exact eq_comm
  rw [hold, hnew] at hcount
  refine (Nat.add_zero _).symm.trans (hcount.trans ?_)
  split_ifs with hm
  · rw [decide_eq_true hm]
    rfl
  · rw [decide_eq_false hm]
    rfl

/-- A new file keeps the count. -/
theorem Sys.Counted.fileNew (h : s.Counted) (hnew : vfsFileNew s k = some (i, t, trace)) :
    t.Counted := by
  rcases fileNew_slot hnew with ⟨hi, hnull, rfl⟩
  intro m
  have hrefs : ((vfsInodeRef (s.enter k i) k).1.slot m).refs =
      if m = k then ((s.slot k).refs+1) % 256 else (s.slot m).refs := setSlot_refs _ k _ m
  have hle := entries_le s.files k
  unfold vfsMaxFileNum at hle
  show _ = entries (s.enter k i).files m
  rw [hrefs, entries_enter hi hnull]
  split_ifs with hm
  · rw [hm, h k, Nat.mod_eq_of_lt (by omega)]
  · exact h m

/-- A deleted file gives its reference back. -/
theorem fileDel_refs (s : Sys) (i m : ℕ) :
    ((vfsFileDel s i).1.slot m).refs = (s.slot m).refs-(onNode m (s.files.file i)).toNat := by
  show ((fileUnref s i).1.slot m).refs = _
  unfold fileUnref onNode
  cases hnode : (s.files.file i).node with
  | null => rfl
  | redirect => rfl
  | inode k =>
    rw [unref_refs]
    split_ifs with hm
    · rw [hm, decide_eq_true rfl]
      rfl
    · rw [decide_eq_false fun heq => hm (FileNode.inode.inj heq).symm]
      rfl

/-- It keeps the count. -/
theorem Sys.Counted.fileDel (h : s.Counted) (hi : i < vfsMaxFileNum) :
    (vfsFileDel s i).1.Counted := by
  intro m
  have hcount := entries_setFile (s := s.files) hi ⟨.null, -1, 0⟩ m
  rw [fileDel_refs, h m]
  exact Nat.sub_eq_of_eq_add hcount.symm

/-- A descriptor that is found is in range. -/
theorem get2_lt {s : Files} (h : vfsFileGet2 s fd = some i) : i < vfsMaxFileNum := by
  have hslot := (get2_eq_some.mp h).1
  unfold slotOf at hslot
  split_ifs at hslot with hrange
  cases hslot
  omega

/-- The first section of `vfs_open`. -/
theorem openBegin_cases (s : Sys) (path : Path) :
    (∃ err, openBegin s path = (s, locked .vfs [], .failed err)) ∨
      ∃ k i t trace, vfsInodeOpen s.nodes path = some k ∧ vfsFileNew s k = some (i, t, trace) ∧
        openBegin s path = (t, locked .vfs trace, .begun k i) := by
  fun_cases openBegin s path with
  | case1 => exact .inl ⟨_, rfl⟩
  | case2 => exact .inl ⟨_, rfl⟩
  | case3 k hlookup i t trace hnew => exact .inr ⟨k, i, t, trace, hlookup, hnew, rfl⟩

/-- The end of `vfs_open` keeps the count. -/
theorem Sys.Counted.openEnd (h : s.Counted) (hi : i < vfsMaxFileNum) (ret : ℤ) :
    (openEnd s i ret).sys.Counted := by
  unfold VfsSys.openEnd
  split_ifs
  · exact h.fileDel hi
  · exact h.mark _ _

/-- So does the end of `vfs_close`. -/
theorem Sys.Counted.closeFile (h : s.Counted) (hi : i < vfsMaxFileNum) (fd : ℤ) :
    (closeFile s fd i).1.Counted := (h.mark fd false).fileDel hi

/-- What the first section of `vfs_close` found. -/
theorem closeBegin_begun (h : closeBegin s fd = .begun i) :
    vfsFileGet2 s.files fd = some i ∧ (s.files.file i).redirectFd < 0 ∧
      (s.files.file i).node ≠ .null := by
  revert h
  fun_cases closeBegin s fd <;> rintro ⟨⟩
  case case4 hget hredirect hnull => exact ⟨hget, Int.not_le.mp hredirect, hnull⟩

/-- A redirected descriptor. -/
theorem closeBegin_redirected (h : closeBegin s fd = .redirected) :
    ∃ i, vfsFileGet2 s.files fd = some i ∧ 0 ≤ (s.files.file i).redirectFd := by
  revert h
  fun_cases closeBegin s fd <;> rintro ⟨⟩
  case case2 i hget hredirect => exact ⟨i, hget, hredirect⟩

end Sections

section Tasks

/-- Where a task is. -/
inductive Task where
  /-- No call is in progress. -/
  | idle
  /-- `vfs_open` before the lock of the node. -/
  | openNode (k i : ℕ)
  /-- `vfs_open` before its last section. -/
  | openLast (i : ℕ) (ret : ℤ)
  /-- `vfs_close` before `clear_normal_redirect_fd`. -/
  | closeRedirect (fd : ℤ)
  /-- `vfs_close` before the node of the file is read. -/
  | closeRead (fd : ℤ) (i : ℕ)
  /-- `vfs_close` before the lock of the node. -/
  | closeNode (fd : ℤ) (i k : ℕ)
  /-- `vfs_close` before its last section. -/
  | closeLast (fd : ℤ) (i : ℕ)
  /-- `vfs_close` took the node of the file to be there when it was not. -/
  | stuck
deriving DecidableEq

/-- The file system and its tasks. -/
structure World where
  /-- The state of the file system. -/
  sys : Sys
  /-- The tasks. -/
  task : ℕ → Task

/-- A step of a task. -/
inductive Action where
  /-- An idle task calls `vfs_open`. -/
  | openFile (n : ℕ) (path : Path)
  /-- An idle task calls `vfs_close`. -/
  | close (n : ℕ) (fd : ℤ)
  /-- A call goes on with its next section, given what the driver returns. -/
  | next (n : ℕ) (ret : ℤ)

/-- A task moves. -/
def World.move (w : World) (n : ℕ) (s : Sys) (p : Task) : World :=
  ⟨s, update w.task n p⟩

/-- Where `vfs_open` is after its first section. -/
def Task.opening : OpenBegun → Task
  | .failed _ => .idle
  | .begun k i => .openNode k i

/-- Where `vfs_close` is after its first section. -/
def Task.closing (fd : ℤ) : CloseBegun → Task
  | .failed => .idle
  | .redirected => .closeRedirect fd
  | .begun i => .closeRead fd i

/-- The next section of a call: the state and where the task is then. -/
def Task.next (s : Sys) (ret : ℤ) : Task → Option (Sys × Task)
  | .idle | .stuck => none
  | .openNode k i => some (s, .openLast i (openDriver s k i ret).2)
  | .openLast i ret => some ((openEnd s i ret).sys, .idle)
  | .closeRedirect fd => some ((clearNormalRedirectFd s fd).sys, .idle)
  | .closeRead fd i =>
    match (s.files.file i).node with
    | .inode k => some (s, .closeNode fd i k)
    | _ => some (s, .stuck)
  | .closeNode fd i _ => some (s, .closeLast fd i)
  | .closeLast fd i => some ((closeFile s fd i).1, .idle)

/-- A step; nothing if the task is not at that point. -/
def World.step (w : World) : Action → Option World
  | .openFile n path =>
    if w.task n = .idle then
      if vfsPathMax < path.length then some w
      else
        some (w.move n (openBegin w.sys path).1 (.opening (openBegin w.sys path).2.2))
    else none
  | .close n fd =>
    if w.task n = .idle then
      if isStdioFd fd then
        some (w.move n { w.sys with stdio := update w.sys.stdio fd (-1) } .idle)
      else some (w.move n w.sys (.closing fd (closeBegin w.sys fd)))
    else none
  | .next n ret => ((w.task n).next w.sys ret).map fun r => w.move n r.1 r.2

/-- What a task relies on: its file is in the table and is not redirected. -/
def Task.Holds (s : Files) : Task → Prop
  | .idle | .stuck => True
  | .openNode _ i | .openLast i _ | .closeRead _ i | .closeNode _ i _ | .closeLast _ i =>
    i < vfsMaxFileNum ∧ (s.file i).redirectFd < 0
  | .closeRedirect _ => False

/-- No open descriptor is redirected. -/
def Plain (s : Files) : Prop := ∀ i, s.opened i = true → (s.file i).redirectFd < 0

/-- What holds between any two sections. -/
structure World.Ok (w : World) : Prop where
  /-- The references agree with the file table. -/
  counted : w.sys.Counted
  /-- The open descriptors. -/
  plain : Plain w.sys.files
  /-- The tasks. -/
  holds : ∀ n, (w.task n).Holds w.sys.files

section Steps

variable {w w' : World} {s : Sys} {n i k : ℕ} {p : Task} {fd : ℤ} {trace : Trace}

/-- A section keeps the files that are not redirected. -/
def Keeps (s t : Sys) : Prop :=
  ∀ i, (s.files.file i).redirectFd < 0 → (t.files.file i).redirectFd < 0

/-- A task holds its slot. -/
theorem Task.Holds.keeps {s t : Sys} (h : p.Holds s.files) (hkeeps : Keeps s t) :
    p.Holds t.files := by
  cases p with
  | idle | stuck => trivial
  | closeRedirect fd => exact h
  | openNode _ i | openLast i _ | closeRead _ i | closeNode _ i _ | closeLast _ i =>
    exact ⟨h.1, hkeeps i h.2⟩

/-- A task moves to a point at which it holds what it relies on. -/
theorem World.Ok.move (h : w.Ok) {t : Sys} (hcounted : t.Counted) (hplain : Plain t.files)
    (hkeeps : Keeps w.sys t) (hp : p.Holds t.files) : (w.move n t p).Ok := by
  refine ⟨hcounted, hplain, fun m => ?_⟩
  show (update w.task n p m).Holds t.files
  rw [update_apply]
  split_ifs
  · exact hp
  · exact (h.holds m).keeps hkeeps

/-- A task moves while nodes and files stay as they are. -/
theorem World.Ok.move_same (h : w.Ok) (stdio : ℤ → ℤ) (hp : p.Holds w.sys.files) :
    (w.move n { w.sys with stdio } p).Ok := h.move h.counted h.plain (fun _ hi => hi) hp

/-- A file that is not redirected is put into a slot. -/
theorem setFile_keeps {f : File} (hf : f.redirectFd < 0) (s : Files) (i j : ℕ)
    (hj : (s.file j).redirectFd < 0 ∨ j = i) : ((s.setFile i f).file j).redirectFd < 0 := by
  show (update s.file i f j).redirectFd < 0
  rw [update_apply]
  split_ifs with hji
  · exact hf
  · exact hj.resolve_right hji

/-- The first section of `vfs_open` leaves the slots of the others. -/
theorem openBegin_keeps (hplain : Plain s.files) (path : Path) :
    Keeps s (openBegin s path).1 ∧ Plain (openBegin s path).1.files ∧
      (Task.opening (openBegin s path).2.2).Holds (openBegin s path).1.files := by
  rcases openBegin_cases s path with ⟨err, heq⟩ | ⟨k, i, t, trace, -, hnew, heq⟩
  · rw [heq]
    exact ⟨fun _ hi => hi, hplain, trivial⟩
  · rcases fileNew_slot hnew with ⟨hi, -, rfl⟩
    have hset := setFile_keeps (f := ⟨.inode k, -1, s.files.openings⟩)
      (show (-1 : ℤ) < 0 by decide) s.files i
    rw [heq]
    exact ⟨fun j hj => hset j (.inl hj), fun j hj => hset j (.inl (hplain j hj)), hi,
      hset i (.inr rfl)⟩

/-- It keeps the count. -/
theorem Sys.Counted.openBegin (h : s.Counted) (path : Path) : (openBegin s path).1.Counted := by
  rcases openBegin_cases s path with ⟨err, heq⟩ | ⟨k, i, t, trace, -, hnew, heq⟩ <;> rw [heq]
  · exact h
  · exact h.fileNew hnew

theorem fileDel_keeps (s : Sys) (i : ℕ) : Keeps s (vfsFileDel s i).1 :=
  fun j hj => setFile_keeps (by decide) s.files i j (.inl hj)

/-- The last section leaves them, too. -/
theorem openEnd_keeps (hplain : Plain s.files) (hi : i < vfsMaxFileNum)
    (hredirect : (s.files.file i).redirectFd < 0) (ret : ℤ) :
    Keeps s (openEnd s i ret).sys ∧ Plain (openEnd s i ret).sys.files := by
  unfold openEnd
  split_ifs
  · exact ⟨fileDel_keeps s i, fun j hj => fileDel_keeps s i j (hplain j hj)⟩
  · have hmark : s.mark (vfsFdGet i) true = { s with files := s.files.mark i true } := by
      rw [Sys.mark, slotOf_fdGet hi]
    rw [hmark]
    refine ⟨fun j hj => hj, fun j hj => ?_⟩
    by_cases hji : j = i
    · rw [hji]
      exact hredirect
    · have hopen : s.files.opened j = true := by
        rw [← hj]
        exact (update_of_ne hji true s.files.opened).symm
      exact hplain j hopen

/-- So does the last section of `vfs_close`. -/
theorem closeFile_keeps (hplain : Plain s.files) (fd : ℤ) (i : ℕ) :
    Keeps s (closeFile s fd i).1 ∧ Plain (closeFile s fd i).1.files := by
  have hkeeps : Keeps s (closeFile s fd i).1 := by
    intro j hj
    refine fileDel_keeps (s.mark fd false) i j ?_
    rwa [mark_file]
  refine ⟨hkeeps, fun j hj => hkeeps j (hplain j ?_)⟩
  have hopen : (s.mark fd false).files.opened j = true := hj
  unfold Sys.mark at hopen
  cases hslot : slotOf fd with
  | none =>
    rw [hslot] at hopen
    exact hopen
  | some m =>
    rw [hslot] at hopen
    have hbit : update s.files.opened m false j = true := hopen
    rw [update_apply] at hbit
    split_ifs at hbit
    exact hbit

/-- A close holds what it found. -/
theorem closeBegin_holds (hplain : Plain s.files) (fd : ℤ) :
    (Task.closing fd (closeBegin s fd)).Holds s.files := by
  cases hbegin : closeBegin s fd with
  | failed => trivial
  | redirected =>
    rcases closeBegin_redirected hbegin with ⟨i, hget, hredirect⟩
    exact absurd hredirect (Int.not_le.mpr (hplain i (get2_eq_some.mp hget).2))
  | begun i =>
    have hbegun := closeBegin_begun hbegin
    exact ⟨get2_lt hbegun.1, hbegun.2.1⟩

/-- One section of a call. -/
theorem World.Ok.next (h : w.Ok) {ret : ℤ} {r : Sys × Task}
    (hnext : (w.task n).next w.sys ret = some r) : (w.move n r.1 r.2).Ok := by
  have hn := h.holds n
  revert hnext hn
  generalize w.task n = p
  fun_cases Task.next w.sys ret p <;> rintro ⟨⟩ hn
  case case3 | case6 | case8 => exact h.move_same w.sys.stdio hn
  case case4 i ret =>
    have hkeeps := openEnd_keeps h.plain hn.1 hn.2 ret
    exact h.move (h.counted.openEnd hn.1 ret) hkeeps.2 hkeeps.1 trivial
  case case5 => exact hn.elim
  case case7 => exact h.move_same w.sys.stdio trivial
  case case9 fd i =>
    have hkeeps := closeFile_keeps h.plain fd i
    exact h.move (h.counted.closeFile hn.1 fd) hkeeps.2 hkeeps.1 trivial

/-- Every step keeps it. -/
theorem World.Ok.step (h : w.Ok) {a : Action} (hstep : w.step a = some w') : w'.Ok := by
  cases a with
  | openFile n path =>
    rw [World.step] at hstep
    split_ifs at hstep
    · cases hstep
      exact h
    · cases hstep
      have hkeeps := openBegin_keeps h.plain path
      exact h.move (h.counted.openBegin path) hkeeps.2.1 hkeeps.1 hkeeps.2.2
  | close n fd =>
    rw [World.step] at hstep
    split_ifs at hstep
    · cases hstep
      exact h.move_same _ trivial
    · cases hstep
      exact h.move_same w.sys.stdio (closeBegin_holds h.plain fd)
  | next n ret =>
    rcases Option.map_eq_some_iff.mp hstep with ⟨r, hnext, rfl⟩
    exact h.next hnext

end Steps

/-- Nodes are registered and no file was opened yet. -/
def Sys.Fresh (s : Sys) : Prop := s.files = Files.init ∧ ∀ k, (s.slot k).refs = 0

/-- It holds in the beginning. -/
theorem Sys.Fresh.ok {s : Sys} (h : s.Fresh) : World.Ok ⟨s, fun _ => .idle⟩ := by
  refine ⟨fun k => ?_, ?_, fun _ => trivial⟩
  · rw [h.2 k, h.1, entries_init]
  · rw [h.1]
    exact nofun

end Tasks

/-- However the sections of `vfs_open` and `vfs_close` calls of any tasks follow each other, the
references of every node are the number of entries of the file table whose node it is, between
any two sections and so when no call is in progress. -/
theorem refs_eq_entries {s : Sys} (hfresh : s.Fresh) {actions : List Action} {w : World}
    (hrun : run World.step ⟨s, fun _ => .idle⟩ actions = some w) (k : ℕ) :
    (w.sys.slot k).refs = entries w.sys.files k :=
  (run_keeps (fun _ _ _ _ hok hstep => World.Ok.step hok hstep) (along_true actions _)
    hfresh.ok hrun).counted k

/-- A driver is registered. -/
def sampleSys : Sys := (vfsRegister .char Sys.init ['/', 'a']).sys

/-- A file is opened, and two tasks close it: one of them has looked it up before the other one
empties its slot, and goes on when a third task has a new file there. -/
def sampleActions : List Action :=
  [.openFile 0 ['/', 'a'], .next 0 0, .next 0 0, .close 1 48, .next 1 0, .next 1 0, .close 2 48,
    .next 2 0, .next 2 0, .next 2 0, .openFile 0 ['/', 'a'], .next 1 0, .next 0 0, .next 0 0]

theorem refs_eq_entries_sample :
    ∃ w, run World.step ⟨sampleSys, fun _ => .idle⟩ sampleActions = some w ∧
      w.task 0 = .idle ∧ w.task 1 = .idle ∧ w.task 2 = .idle ∧ (w.sys.slot 0).refs = 0 ∧
      w.sys.files.opened 0 = true ∧ (w.sys.slot 0).refs = entries w.sys.files 0 := by
  have hfresh : sampleSys.Fresh := by
    refine ⟨rfl, fun k => ?_⟩
    show (update Sys.init.slot 0 _ k).refs = 0
    rw [update_apply]
    split_ifs <;> rfl
  obtain ⟨w, hrun, h0, h1, h2, hrefs, hopened⟩ : ∃ w, run World.step
      ⟨sampleSys, fun _ => .idle⟩ sampleActions = some w ∧ w.task 0 = .idle ∧ w.task 1 = .idle ∧
        w.task 2 = .idle ∧ (w.sys.slot 0).refs = 0 ∧ w.sys.files.opened 0 = true := by
    decide +kernel
  exact ⟨w, hrun, h0, h1, h2, hrefs, hopened, refs_eq_entries hfresh hrun 0⟩

end PineVoice.VfsSys
