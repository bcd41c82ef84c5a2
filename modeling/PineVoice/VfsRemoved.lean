import PineVoice.VfsUnregister

/-!
# The operations of a node that was unregistered

A node that is unregistered while files are open on it keeps its slot until the last of them is
closed. A free slot has no files, so a descriptor never comes to a node that was registered later.
A path may do so: the pointer to the root file system stays when that is unregistered, and leads
to a free slot or to whatever was registered there since. Nodes and files change as in the models
of each table alone.
-/

namespace PineVoice.VfsSys

open Function LockTrace Transition Vfs VfsFile

/-- What holds between two calls. -/
structure Sys.Inv (s : Sys) : Prop where
  /-- The references and the files. -/
  ok : s.Ok
  /-- A file is on the node on which it was opened. -/
  held : ∀ i k, (s.files.file i).node = .inode k →
    i < vfsMaxFileNum ∧ (s.slot k).used ≠ none ∧ (s.slot k).reg = s.fileReg i
  /-- A valid node was not unregistered. -/
  live : ∀ k, (s.slot k).used ≠ none → (s.slot k).valid = true → (s.slot k).reg ∉ s.removed
  /-- The registrations are numbered. -/
  numbered : ∀ k, (s.slot k).used ≠ none → (s.slot k).reg < s.regs
  /-- The registrations that have ended are among them. -/
  ended : ∀ r ∈ s.removed, r < s.regs
  /-- A registration has one slot. -/
  apart : ∀ k m, (s.slot k).used ≠ none → (s.slot m).used ≠ none →
    (s.slot k).reg = (s.slot m).reg → k = m

/-- Nothing is registered yet. -/
theorem Sys.Inv.init : Sys.init.Inv :=
  ⟨Sys.Ok.init, nofun, fun _ h => absurd rfl h, fun _ h => absurd rfl h, nofun,
    fun _ _ h => absurd rfl h⟩

section Keeps

variable {s t : Sys} {i k : ℕ} {fd : ℤ} {trace : Trace}

/-- Files are closed, and slots without references are freed. -/
structure Loses (s t : Sys) : Prop where
  /-- The status and the operations of a slot stay. -/
  node : ∀ k, (t.slot k).valid = (s.slot k).valid ∧ (t.slot k).reg = (s.slot k).reg
  /-- A slot stays in use, or it has no references. -/
  used : ∀ k, (t.slot k).used = (s.slot k).used ∨ (t.slot k).used = none ∧ (t.slot k).refs = 0
  /-- No file is opened. -/
  file : ∀ i k, (t.files.file i).node = .inode k → (s.files.file i).node = .inode k
  /-- The registrations stay. -/
  regs : t.removed = s.removed ∧ t.regs = s.regs ∧ t.fileReg = s.fileReg

theorem Loses.used_ne (h : Loses s t) (hk : (t.slot k).used ≠ none) : (s.slot k).used ≠ none := by
  rcases h.used k with heq | ⟨hnone, -⟩
  · rwa [← heq]
  · exact absurd hnone hk

/-- A slot with files on it has references, so it is still in use. -/
theorem Sys.Inv.loses (h : s.Inv) (hloses : Loses s t) (hok : t.Ok) : t.Inv := by
  have hnode := hloses.node
  rcases hloses.regs with ⟨hremoved, hregs, hfileReg⟩
  refine ⟨hok, fun i k hik => ?_, fun k hk hvalid => ?_, fun k hk => ?_, ?_,
    fun k m hk hm heq => ?_⟩
  · rcases h.held i k (hloses.file i k hik) with ⟨hi, hused, hreg⟩
    refine ⟨hi, ?_, ?_⟩
    · rcases hloses.used k with heq | ⟨-, hrefs⟩
      · rwa [heq]
      · have hpos := entries_pos hi hik
        rw [← hok.counted k, hrefs] at hpos
        exact absurd hpos (Nat.lt_irrefl 0)
    · rw [(hnode k).2, hreg, hfileReg]
  · rw [(hnode k).2, hremoved]
    exact h.live k (hloses.used_ne hk) ((hnode k).1 ▸ hvalid)
  · rw [(hnode k).2, hregs]
    exact h.numbered k (hloses.used_ne hk)
  · rw [hremoved, hregs]
    exact h.ended
  · rw [(hnode k).2, (hnode m).2] at heq
    exact h.apart k m (hloses.used_ne hk) (hloses.used_ne hm) heq

/-- A reference is given back. -/
theorem unref_loses (s : Sys) (k m : ℕ) :
    (((vfsInodeUnref s k).1.slot m).valid = (s.slot m).valid ∧
      ((vfsInodeUnref s k).1.slot m).reg = (s.slot m).reg) ∧
    (((vfsInodeUnref s k).1.slot m).used = (s.slot m).used ∨
      ((vfsInodeUnref s k).1.slot m).used = none ∧ ((vfsInodeUnref s k).1.slot m).refs = 0) := by
  by_cases hm : m = k
  · rw [hm]
    unfold vfsInodeUnref inodeFree Sys.setSlot
    split_ifs with hfree
    · dsimp only
      rw [update_self, update_self]
      exact ⟨⟨rfl, rfl⟩, .inr ⟨rfl, hfree.1⟩⟩
    · dsimp only
      rw [update_self]
      exact ⟨⟨rfl, rfl⟩, .inl rfl⟩
  · have hsame : (vfsInodeUnref s k).1.slot m = s.slot m := by
      unfold vfsInodeUnref inodeFree Sys.setSlot
      split_ifs
      · exact (update_of_ne hm ..).trans (update_of_ne hm ..)
      · exact update_of_ne hm ..
    rw [hsame]
    exact ⟨⟨rfl, rfl⟩, .inl rfl⟩

/-- The registrations stay. -/
theorem unref_regs (s : Sys) (k : ℕ) : (vfsInodeUnref s k).1.removed = s.removed ∧
    (vfsInodeUnref s k).1.regs = s.regs ∧ (vfsInodeUnref s k).1.fileReg = s.fileReg := by
  unfold vfsInodeUnref
  split_ifs <;> exact ⟨rfl, rfl, rfl⟩

/-- A cleared entry is on no node. -/
theorem clear_file {f : Files} {i j k : ℕ} (h : ((VfsFile.vfsFileDel f i).file j).node = .inode k) :
    (f.file j).node = .inode k := by
  have hfile : (update f.file i ⟨.null, -1, 0⟩ j).node = .inode k := h
  rw [update_apply] at hfile
  split_ifs at hfile
  exact hfile

/-- A file is deleted. -/
theorem fileDel_loses (s : Sys) (i : ℕ) : Loses s (vfsFileDel s i).1 := by
  unfold vfsFileDel fileUnref
  cases (s.files.file i).node with
  | null | redirect =>
    exact ⟨fun _ => ⟨rfl, rfl⟩, fun _ => .inl rfl, fun _ _ h => clear_file h, rfl, rfl, rfl⟩
  | inode k =>
    exact ⟨fun m => (unref_loses s k m).1, fun m => (unref_loses s k m).2,
      fun _ _ h => clear_file h, unref_regs s k⟩

/-- A mark changes the bitmap only. -/
theorem mark_eq (s : Sys) (fd : ℤ) (b : Bool) :
    ∃ files, s.mark fd b = { s with files } ∧ files.file = s.files.file := by
  unfold Sys.mark
  cases slotOf fd with
  | none => exact ⟨s.files, rfl, rfl⟩
  | some i => exact ⟨s.files.mark i b, rfl, rfl⟩

theorem Loses.of_mark {b : Bool} (h : Loses (s.mark fd b) t) : Loses s t := by
  rcases mark_eq s fd b with ⟨files, heq, hfile⟩
  rw [heq] at h
  exact ⟨h.node, h.used, fun i k hik => hfile ▸ h.file i k hik, h.regs⟩

/-- A descriptor is marked. -/
theorem mark_loses (s : Sys) (fd : ℤ) (b : Bool) : Loses s (s.mark fd b) :=
  Loses.of_mark ⟨fun _ => ⟨rfl, rfl⟩, fun _ => .inl rfl, fun _ _ h => h, rfl, rfl, rfl⟩

/-- A deleted file keeps the invariant. -/
theorem Sys.Inv.fileDel (h : s.Inv) (hi : i < vfsMaxFileNum) : (vfsFileDel s i).1.Inv :=
  h.loses (fileDel_loses s i) (h.ok.fileDel hi)

/-- So does a closed one. -/
theorem Sys.Inv.closeFile (h : s.Inv) (hi : i < vfsMaxFileNum) (fd : ℤ) :
    (closeFile s fd i).1.Inv :=
  h.loses (fileDel_loses _ i).of_mark (h.ok.closeFile hi fd)

/-- A reference is taken. -/
theorem ref_node (s : Sys) (k m : ℕ) :
    ((vfsInodeRef s k).1.slot m).used = (s.slot m).used ∧
      ((vfsInodeRef s k).1.slot m).valid = (s.slot m).valid ∧
      ((vfsInodeRef s k).1.slot m).reg = (s.slot m).reg := by
  unfold vfsInodeRef Sys.setSlot
  dsimp only
  rw [update_apply]
  split_ifs with hm
  · rw [hm]
    exact ⟨rfl, rfl, rfl⟩
  · exact ⟨rfl, rfl, rfl⟩

/-- A file is opened on a node in use. -/
theorem Sys.Inv.fileNew (h : s.Inv) (hnew : vfsFileNew s k = some (i, t, trace))
    (hused : (s.slot k).used ≠ none) : t.Inv := by
  have hok := h.ok.fileNew hnew
  rcases fileNew_slot hnew with ⟨hi, -, rfl⟩
  have hnode := ref_node (s.enter k i) k
  refine ⟨hok, fun j m hjm => ?_, fun m hm hvalid => ?_, fun m hm => ?_, h.ended,
    fun m m' hm hm' heq => ?_⟩
  · rw [(hnode m).1, (hnode m).2.2]
    have hfile : (update s.files.file i ⟨.inode k, -1, s.files.openings⟩ j).node = .inode m := hjm
    show _ ∧ (s.slot m).used ≠ none ∧ (s.slot m).reg = update s.fileReg i (s.slot k).reg j
    rw [update_apply] at hfile ⊢
    split_ifs at hfile ⊢ with hji
    · cases hfile
      exact ⟨hji ▸ hi, hused, rfl⟩
    · exact h.held j m hfile
  · rw [(hnode m).2.2]
    exact h.live m ((hnode m).1 ▸ hm) ((hnode m).2.1 ▸ hvalid)
  · rw [(hnode m).2.2]
    exact h.numbered m ((hnode m).1 ▸ hm)
  · rw [(hnode m).2.2, (hnode m').2.2] at heq
    exact h.apart m m' ((hnode m).1 ▸ hm) ((hnode m').1 ▸ hm') heq

/-- A free slot has no files, and its new registration is a new one. -/
theorem Sys.Inv.registered (h : s.Inv) (hfree : (s.slot k).used = none) (type : NodeType)
    (path : Path) (hok : (s.registered type path k).Ok) : (s.registered type path k).Inv := by
  have hself : (s.registered type path k).slot k =
      ⟨some (path, type), (s.slot k).refs, true, s.regs⟩ := update_self ..
  have hother : ∀ m, m ≠ k → (s.registered type path k).slot m = s.slot m :=
    fun m hm => update_of_ne hm ..
  refine ⟨hok, fun i m him => ?_, fun m hm hvalid hmem => ?_, fun m hm => ?_, fun r hr => ?_,
    fun m m' hm hm' heq => ?_⟩
  · have hheld := h.held i m him
    have hmk : m ≠ k := by
      rintro rfl
      exact hheld.2.1 hfree
    rw [hother m hmk]
    exact hheld
  · by_cases hmk : m = k
    · rw [hmk, hself] at hmem
      exact absurd (h.ended _ hmem) (Nat.lt_irrefl _)
    · rw [hother m hmk] at hm hvalid hmem
      exact h.live m hm hvalid hmem
  · by_cases hmk : m = k
    · rw [hmk, hself]
      exact Nat.lt_succ_self s.regs
    · rw [hother m hmk] at hm ⊢
      exact Nat.lt_succ_of_lt (h.numbered m hm)
  · exact Nat.lt_succ_of_lt (h.ended r hr)
  · by_cases hmk : m = k <;> by_cases hmk' : m' = k
    · rw [hmk, hmk']
    · rw [hmk, hself, hother m' hmk'] at heq
      rw [hother m' hmk'] at hm'
      exact absurd heq (Nat.ne_of_gt (h.numbered m' hm'))
    · rw [hmk', hself, hother m hmk] at heq
      rw [hother m hmk] at hm
      exact absurd heq (Nat.ne_of_lt (h.numbered m hm))
    · rw [hother m hmk] at hm heq
      rw [hother m' hmk'] at hm' heq
      exact h.apart m m' hm hm' heq

/-- The node of a slot is marked or deleted. -/
theorem Sys.Inv.remove (h : s.Inv) {x : Slot} (hreg : x.reg = (s.slot k).reg)
    (hused : x.used ≠ none → x.used = (s.slot k).used ∧ x.valid = false)
    (hfiles : ∀ i, (s.files.file i).node = .inode k → x.used ≠ none)
    (hok : (s.setSlot k x).Ok) :
    Sys.Inv { s.setSlot k x with removed := s.removedAt k ++ s.removed } := by
  have hself : (s.setSlot k x).slot k = x := update_self ..
  have hother : ∀ m, m ≠ k → (s.setSlot k x).slot m = s.slot m :=
    fun m hm => update_of_ne hm ..
  have hwas : ∀ m, ((s.setSlot k x).slot m).used ≠ none → (s.slot m).used ≠ none := by
    intro m hm
    by_cases hmk : m = k
    · rw [hmk, hself] at hm
      rw [hmk, ← (hused hm).1]
      exact hm
    · rwa [hother m hmk] at hm
  have hregs : ∀ m, ((s.setSlot k x).slot m).reg = (s.slot m).reg := by
    intro m
    by_cases hmk : m = k
    · rw [hmk, hself, hreg]
    · rw [hother m hmk]
  have hremoved : ∀ r ∈ s.removedAt k, r = (s.slot k).reg ∧ (s.slot k).used ≠ none := by
    intro r hr
    unfold Sys.removedAt at hr
    split_ifs at hr with hsome
    · exact ⟨List.mem_singleton.mp hr, fun hnone => by rw [hnone] at hsome; cases hsome⟩
    · cases hr
  refine ⟨⟨hok.counted, hok.tidy⟩, fun i m him => ?_, fun m hm hvalid hmem => ?_, fun m hm => ?_,
    fun r hr => ?_, fun m m' hm hm' heq => ?_⟩
  · have hheld := h.held i m him
    refine ⟨hheld.1, ?_, (hregs m).trans hheld.2.2⟩
    by_cases hmk : m = k
    · rw [hmk, hself]
      exact hfiles i (hmk ▸ him)
    · rw [hother m hmk]
      exact hheld.2.1
  · have hreg' : (s.slot m).reg ∈ s.removedAt k ++ s.removed := (hregs m) ▸ hmem
    by_cases hmk : m = k
    · have hinvalid : ((s.setSlot k x).slot m).valid = true := hvalid
      have hused' : ((s.setSlot k x).slot m).used ≠ none := hm
      rw [hmk, hself] at hinvalid hused'
      rw [(hused hused').2] at hinvalid
      cases hinvalid
    · rcases List.mem_append.mp hreg' with hr | hr
      · have hk := hremoved _ hr
        exact hmk (h.apart m k (hwas m hm) hk.2 hk.1)
      · have hvalid' : ((s.setSlot k x).slot m).valid = true := hvalid
        rw [hother m hmk] at hvalid'
        exact h.live m (hwas m hm) hvalid' hr
  · exact (hregs m).symm ▸ h.numbered m (hwas m hm)
  · rcases List.mem_append.mp hr with hr | hr
    · have hk := hremoved r hr
      rw [hk.1]
      exact h.numbered k hk.2
    · exact h.ended r hr
  · exact h.apart m m' (hwas m hm) (hwas m' hm') ((hregs m).symm.trans (heq.trans (hregs m')))

/-- The node of a slot is registered for a path: under that path, as a file system above it or as
the root file system. -/
def Slot.Covers (x : Slot) (path : Path) : Prop :=
  ∃ node, x.inode = some node ∧ (node.Hits path ∨ node.type = .fs ∧ node.name = ['/'])

/-- A node in the table ends the lookup of a path, or what the root pointer leads to is the root
file system. -/
def Sys.RootHeld (s : Sys) (path : Path) : Prop :=
  (∃ i node, s.nodes.Has i node ∧ node.Hits path) ∨
    ∀ k, vfsInodeOpen s.nodes path = some k → (s.slot k).used = some (['/'], .fs)

/-- The lookup leads to a node for the path. -/
theorem Sys.RootHeld.covers {path : Path} (h : s.RootHeld path)
    (hk : vfsInodeOpen s.nodes path = some k) : (s.slot k).Covers path := by
  rcases h with hhit | hroot
  · rcases exists_first_hit hhit with ⟨i, node, hhas, hnode, -, hopen⟩
    cases hk.symm.trans hopen
    exact ⟨node, hhas.2, .inl hnode⟩
  · refine ⟨_, Option.map_eq_some_iff.mpr ⟨_, hroot k hk, rfl⟩, .inr ⟨rfl, rfl⟩⟩

/-- Such a node is in use. -/
theorem Slot.Covers.used {x : Slot} {path : Path} (h : x.Covers path) : x.used ≠ none := by
  rcases h with ⟨node, hnode, -⟩
  rcases Option.map_eq_some_iff.mp hnode with ⟨u, hu, -⟩
  rw [hu]
  exact nofun

/-- A path is opened only while the root pointer is not stale for it. -/
def Sys.RootKept (s : Sys) : Call → Prop
  | .openFile path _ => s.RootHeld path
  | _ => True

/-- Every change keeps the invariant. -/
theorem Sys.Inv.change {c : Call} (h : s.Inv) (hroot : s.RootKept c) (hchange : Change s c t) :
    t.Inv := by
  have hok := h.ok.change hchange
  cases hchange with
  | stdio f => exact ⟨hok, h.held, h.live, h.numbered, h.ended, h.apart⟩
  | registered k hfree type path => exact h.registered hfree type path hok
  | marked k =>
    exact h.remove (x := { s.slot k with valid := false }) rfl (fun _ => ⟨rfl, rfl⟩)
      (fun i hi => (h.held i k hi).2.1) (h.ok.setSlot rfl)
  | freed k hrefs =>
    refine h.remove (x := { s.slot k with used := none }) rfl (fun hne => absurd rfl hne)
      (fun i hi => ?_) (h.ok.setSlot rfl)
    have hpos := entries_pos (h.held i k hi).1 hi
    rw [← h.ok.counted k] at hpos
    exact absurd hpos hrefs
  | opened hk hnew fd =>
    exact (h.fileNew hnew (Sys.RootHeld.covers hroot hk).used).loses (mark_loses _ fd true) hok
  | refused hk hnew =>
    exact (h.fileNew hnew (Sys.RootHeld.covers hroot hk).used).fileDel (fileNew_slot hnew).1
  | closed hi fd => exact h.closeFile hi fd
  | redirected i hfree oldfd =>
    refine h.loses ⟨fun _ => ⟨rfl, rfl⟩, fun _ => .inl rfl, fun j k hjk => ?_, rfl, rfl, rfl⟩ hok
    have hfile : (update s.files.file i ⟨.redirect, oldfd, 0⟩ j).node = .inode k := hjk
    rw [update_apply] at hfile
    split_ifs at hfile
    exact hfile

/-- So does every call. -/
theorem Sys.Inv.call (h : s.Inv) {fuel : ℕ} {c : Call} (hc : c.Single) (hroot : s.RootKept c)
    {r : Outcome} (hr : s.call fuel c = some r) : r.sys.Inv :=
  h.change hroot (call_change h.ok.tidy hc hr)

end Keeps

section Operations

variable {s : Sys} {fd ret : ℤ} {path : Path} {o : OpCall} {fuel : ℕ}

/-- An operation that is called for a file, with its node. -/
def Sys.CallsFor (s : Sys) (o : OpCall) : Prop :=
  ∃ op k i, (s.files.file i).node = .inode k ∧ (s.slot k).valid = true ∧ o = s.opCall op k i

/-- A deleted file calls nothing. -/
theorem fileDel_others (s : Sys) (i : ℕ) : others (vfsFileDel s i).2 = [] := by
  unfold vfsFileDel fileUnref vfsInodeUnref
  cases (s.files.file i).node with
  | null | redirect => rfl
  | inode k =>
    dsimp only
    split_ifs <;> rfl

/-- `vfs_open` calls an operation of the node that the lookup leads to. -/
theorem vfsOpen_others (h : o ∈ others (vfsOpen s path ret).trace) :
    ∃ k i, vfsInodeOpen s.nodes path = some k ∧ (s.slot k).valid = true ∧
      o = s.opCall .opens k i := by
  unfold vfsOpen at h
  split_ifs at h
  · cases h
  · rcases openBegin_cases s path with ⟨err, heq⟩ | ⟨k, i, t, trace, hk, hnew, heq⟩ <;>
      rw [heq] at h
    · cases h
    · have htrace : others trace = [] := by
        rcases Option.map_eq_some_iff.mp hnew with ⟨i', -, hr⟩
        cases hr
        rfl
      have hend : ∀ code, others (openEnd t i code).trace = [] := fun code => by
        unfold openEnd
        split_ifs
        · rw [others_locked, fileDel_others]
        · rfl
      rcases fileNew_slot hnew with ⟨-, -, rfl⟩
      have hnode := ref_node (s.enter k i) k k
      rw [others_append, others_append, others_locked, htrace, hend] at h
      unfold openDriver at h
      split_ifs at h with hvalid
      · refine ⟨k, i, hk, hnode.2.1 ▸ hvalid, ?_⟩
        rw [List.mem_singleton.mp h]
        exact congrArg (fun reg => OpCall.mk .opens k reg i) hnode.2.2
      · cases h

/-- An access calls an operation for its file. -/
theorem access_others {op : Op} {other : ℤ} {r : Trace × ℤ}
    (hr : access op other s fuel fd ret = some r) (h : o ∈ others r.1) : s.CallsFor o := by
  rcases Option.bind_eq_some_iff.mp hr with ⟨f, -, hf⟩
  cases f with
  | none =>
    cases hf
    cases h
  | some i =>
    dsimp only at hf
    cases hnode : (s.files.file i).node with
    | inode k =>
      rw [hnode] at hf
      cases hf
      split_ifs at h with hvalid
      · exact ⟨op, k, i, hnode, hvalid, List.mem_singleton.mp h⟩
      · cases h
    | null | redirect =>
      rw [hnode] at hf
      cases hf

/-- So does `vfs_write`. -/
theorem vfsWrite_others {nbytes : ℤ} {r : Trace × ℤ} (hr : vfsWrite s fuel fd nbytes ret = some r)
    (h : o ∈ others r.1) : s.CallsFor o := by
  unfold vfsWrite at hr
  split_ifs at hr
  · rcases Option.map_eq_some_iff.mp hr with ⟨r', hr', rfl⟩
    exact access_others hr' h
  · cases hr
    cases h
  · exact access_others hr h

/-- So does `vfs_close`. -/
theorem vfsClose_others {r : Outcome} (hr : vfsClose s fd ret = some r) (h : o ∈ others r.trace) :
    s.CallsFor o := by
  revert hr
  fun_cases vfsClose s fd ret <;> rintro ⟨⟩
  case case1 | case2 => cases h
  case case3 r =>
    unfold r clearNormalRedirectFd at h
    cases hget : vfsFileGet2 s.files fd <;> rw [hget] at h <;> cases h
  case case4 i _ k hnode driver last =>
    have hfile : others last.2 = [] := fileDel_others _ i
    rw [others_append, others_append, others_locked, others_locked, hfile] at h
    unfold driver closeDriver at h
    split_ifs at h with hvalid
    · exact ⟨.closes, k, i, hnode, hvalid, List.mem_singleton.mp h⟩
    · cases h

/-- A call of an operation that a call may make: the node was not unregistered, a path leads only
to a node that is registered for it, and a descriptor only to the node on which it was opened. An
unregistration makes calls of its own. -/
def Sys.MayCall (s : Sys) (c : Call) (o : OpCall) : Prop :=
  match c with
  | .unregisterDriver _ | .unregisterFs _ => True
  | .openFile path _ =>
    o.reg ∉ s.removed ∧ o.reg = (s.slot o.node).reg ∧ (s.slot o.node).Covers path
  | _ => o.reg ∉ s.removed ∧ o.reg = s.fileReg o.file

/-- The node of a file was not unregistered. -/
theorem Sys.Inv.callsFor (h : s.Inv) (ho : s.CallsFor o) :
    o.reg ∉ s.removed ∧ o.reg = s.fileReg o.file := by
  rcases ho with ⟨op, k, i, hnode, hvalid, rfl⟩
  have hheld := h.held i k hnode
  exact ⟨h.live k hheld.2.1 hvalid, hheld.2.2⟩

/-- A call makes only calls that it may make. -/
theorem Sys.Inv.mayCall (h : s.Inv) {c : Call} (hc : c.Single) (hroot : s.RootKept c) {r : Outcome}
    (hr : s.call fuel c = some r) (ho : o ∈ others r.trace) : s.MayCall c o := by
  cases c with
  | registerDriver path | registerFs path =>
    cases hr
    rw [vfsRegister_trace] at ho
    cases ho
  | unregisterDriver path => trivial
  | unregisterFs path => trivial
  | openFile path ret =>
    cases hr
    rcases vfsOpen_others ho with ⟨k, i, hk, hvalid, rfl⟩
    have hcovers := Sys.RootHeld.covers hroot hk
    exact ⟨h.live k hcovers.used hvalid, rfl, hcovers⟩
  | close fd ret => exact h.callsFor (vfsClose_others hr ho)
  | read fd ret =>
    rcases Option.map_eq_some_iff.mp hr with ⟨r', hr', rfl⟩
    exact h.callsFor (access_others hr' ho)
  | write fd nbytes ret =>
    rcases Option.map_eq_some_iff.mp hr with ⟨r', hr', rfl⟩
    exact h.callsFor (vfsWrite_others hr' ho)
  | ioctl fd ret =>
    rcases Option.map_eq_some_iff.mp hr with ⟨r', hr', rfl⟩
    unfold vfsIoctl at hr'
    split_ifs at hr'
    · cases hr'
      cases ho
    · exact h.callsFor (access_others hr' ho)
  | dup oldfd =>
    cases hr
    cases ho
  | dup2 oldfd newfd ret => exact hc.elim

end Operations

section Projections

variable {s : Sys} {r : Outcome} {fuel k : ℕ} {fd ret : ℤ} {path : Path}

/-- A free slot has no references. -/
theorem Sys.Inv.refs_of_free (h : s.Inv) (hfree : (s.slot k).used = none) :
    (s.slot k).refs = 0 := by
  by_contra hne
  rw [h.ok.counted k] at hne
  rcases List.countP_pos_iff.mp (Nat.pos_of_ne_zero hne) with ⟨i, -, hi⟩
  exact (h.held i k (of_decide_eq_true hi)).2.1 hfree

/-- The nodes after a slot is set. -/
theorem setSlot_nodes (s : Sys) (k : ℕ) (x : Slot) :
    (s.setSlot k x).nodes = ⟨update s.nodes.node k x.inode, s.rootfs⟩ :=
  congrArg (Nodes.mk · _) (comp_update Slot.inode s.slot k x)

/-- A registration acts on the nodes as it does on a table of nodes alone. -/
theorem Sys.Inv.register_nodes (h : s.Inv) (type : NodeType) (path : Path) :
    (VfsSys.vfsRegister type s path).sys.nodes = (Vfs.vfsRegister type s.nodes path).1 := by
  unfold VfsSys.vfsRegister Vfs.vfsRegister vfsInodeReserve
  cases vfsInodeOpen s.nodes path with
  | some k => rfl
  | none =>
    by_cases habsolute : path.head? ≠ some '/'
    · rw [if_pos habsolute, if_pos habsolute]
    · rw [if_neg habsolute, if_neg habsolute]
      cases halloc : vfsInodeAlloc s.nodes vfsDeviceNodes 0 with
      | none => rfl
      | some k =>
        have hfree : (s.slot k).used = none := Option.map_eq_none_iff.mp (alloc_some halloc).2
        dsimp only
        rw [h.refs_of_free hfree]
        exact congrArg (Nodes.mk · _) (comp_update Slot.inode s.slot k _)

/-- So does the deletion of a node in use. -/
theorem inodeDel_nodes (hused : (s.slot k).used ≠ none) {d : Sys × Trace}
    (hd : VfsSys.vfsInodeDel s fuel k = some d) :
    Vfs.vfsInodeDel s.nodes k = some (d.1.nodes, .ok) := by
  obtain ⟨u, hu⟩ := Option.ne_none_iff_exists'.mp hused
  have hnode : s.nodes.node k = some ⟨u.1, u.2, (s.slot k).refs, (s.slot k).valid⟩ := by
    show (s.slot k).used.map _ = _
    rw [hu]
    rfl
  unfold VfsSys.vfsInodeDel at hd
  rw [Vfs.vfsInodeDel, hnode]
  dsimp only
  split_ifs at hd ⊢ with hrefs
  · obtain ⟨closes, -, rfl⟩ := Option.map_eq_some_iff.mp hd
    rw [setSlot_nodes, Slot.inode, hu]
    rfl
  · cases hd
    rw [inodeFree, setSlot_nodes]
    rfl

/-- A call ends with the files and the result of a call on the table of files alone, which also
notes the files that are closed. -/
def Outcome.Shows (r : Outcome) (q : Files × ℤ) : Prop :=
  r.sys.files = { q.1 with closings := r.sys.files.closings } ∧ r.ret = q.2

/-- `vfs_open` shows an open on the table of files alone, for some answer of the driver. -/
theorem vfsOpen_shows (hpath : path.length ≤ vfsPathMax) :
    ∃ code, (VfsSys.vfsOpen s path ret).Shows
      (VfsFile.vfsOpen s.files (vfsInodeOpen s.nodes path) code) := by
  unfold VfsSys.vfsOpen VfsFile.vfsOpen openBegin vfsFileNew
  rw [if_neg (Nat.not_lt.mpr hpath)]
  cases vfsInodeOpen s.nodes path with
  | none => exact ⟨0, rfl, rfl⟩
  | some k =>
    dsimp only
    cases hfree : freeSlot s.files vfsMaxFileNum 0 with
    | none => exact ⟨0, rfl, rfl⟩
    | some i =>
      have hi : i < vfsMaxFileNum := by
        have hslot := freeSlot_some hfree
        omega
      refine ⟨(openDriver (vfsInodeRef (s.enter k i) k).1 k i ret).2, ?_⟩
      rw [Option.map_some]
      dsimp only
      unfold openEnd
      split_ifs
      · exact ⟨rfl, rfl⟩
      · rw [Sys.mark, slotOf_fdGet hi]
        exact ⟨rfl, rfl⟩

/-- `vfs_close` shows a close on the table of files alone. -/
theorem vfsClose_shows (hr : VfsSys.vfsClose s fd ret = some r) :
    r.Shows (VfsFile.vfsClose s.files fd r.ret) := by
  unfold VfsSys.vfsClose closeBegin at hr
  unfold VfsFile.vfsClose
  split_ifs at hr ⊢ with hstdio
  · cases hr
    exact ⟨rfl, rfl⟩
  · cases hget : vfsFileGet2 s.files fd with
    | none =>
      rw [hget] at hr
      cases hr
      exact ⟨rfl, rfl⟩
    | some i =>
      rw [hget] at hr
      dsimp only at hr ⊢
      by_cases hredirect : 0 ≤ (s.files.file i).redirectFd
      · rw [if_pos hredirect] at hr ⊢
        cases hr
        rw [clearNormalRedirectFd, hget]
        exact ⟨rfl, rfl⟩
      rw [if_neg hredirect] at hr ⊢
      by_cases hnull : (s.files.file i).node = .null
      · rw [if_pos hnull] at hr ⊢
        cases hr
        exact ⟨rfl, rfl⟩
      · rw [if_neg hnull] at hr ⊢
        dsimp only at hr
        cases hnode : (s.files.file i).node with
        | inode k =>
          rw [hnode] at hr
          cases hr
          rw [closeFile, Sys.mark, (get2_eq_some.mp hget).1]
          exact ⟨rfl, rfl⟩
        | null | redirect =>
          rw [hnode] at hr
          cases hr

/-- So does the close inside of `vfs_dup2`. -/
theorem vfsCloseWithoutGlock_shows
    (hr : VfsSys.vfsCloseWithoutGlock s fuel fd ret = some r) :
    ∃ q, VfsFile.vfsCloseWithoutGlock s.files fuel fd r.ret = some q ∧ r.Shows q := by
  obtain ⟨f, hget, hr⟩ := Option.bind_eq_some_iff.mp hr
  rw [VfsFile.vfsCloseWithoutGlock, hget]
  refine ⟨_, rfl, ?_⟩
  cases f with
  | none =>
    cases hr
    exact ⟨rfl, rfl⟩
  | some i =>
    dsimp only at hr ⊢
    cases hnode : (s.files.file i).node with
    | inode k =>
      rw [hnode] at hr
      cases hr
      rw [closeFile, Sys.mark]
      cases slotOf fd with
      | none | some j => exact ⟨rfl, rfl⟩
    | null | redirect =>
      rw [hnode] at hr
      cases hr

/-- The redirection of a descriptor shows one on the table of files alone. -/
theorem setNormalRedirectFd_shows {oldfd newfd : ℤ}
    (hr : VfsSys.setNormalRedirectFd s fuel oldfd newfd ret = some r) :
    ∃ code q, VfsFile.setNormalRedirectFd s.files fuel oldfd newfd code = some q ∧ r.Shows q := by
  unfold VfsSys.setNormalRedirectFd at hr
  unfold VfsFile.setNormalRedirectFd
  cases hold : vfsFileGet2 s.files oldfd with
  | none =>
    rw [hold] at hr
    cases hr
    exact ⟨0, _, rfl, rfl, rfl⟩
  | some i =>
    rw [hold] at hr
    cases hnew : vfsFileGet2 s.files newfd with
    | none =>
      rw [hnew] at hr
      cases hr
      refine ⟨0, _, rfl, ?_, rfl⟩
      rfl
    | some j =>
      rw [hnew] at hr
      obtain ⟨c, hc, rfl⟩ := Option.map_eq_some_iff.mp hr
      obtain ⟨q, hq, hfiles, hret⟩ := vfsCloseWithoutGlock_shows hc
      refine ⟨c.ret, _, Option.map_eq_some_iff.mpr ⟨q, hq, rfl⟩, ?_⟩
      rw [hret]
      split_ifs
      · exact ⟨hfiles, rfl⟩
      · rw [VfsSys.redirectTo, hfiles]
        have hsame : vfsFileGet2 { q.1 with closings := c.sys.files.closings } newfd =
            vfsFileGet2 q.1 newfd := rfl
        rw [VfsFile.redirectTo, VfsFile.redirectTo, hsame]
        cases vfsFileGet2 q.1 newfd with
        | none | some j => exact ⟨rfl, rfl⟩

end Projections

/-- For every sequence of calls in which a path is opened only while the root pointer is not stale
for it: no call, apart from the unregistrations themselves, makes a call of an operation of a node
that was unregistered, a descriptor leads only to the node on which it was opened, and a path only
to a node that is registered for it. -/
theorem removed_not_called {fuel : ℕ} {calls : List Call}
    (hcalls : Along (Sys.step fuel) (fun s c => c.Single ∧ s.RootKept c) Sys.init calls) :
    Along (Sys.step fuel)
      (fun s c => ∀ r, s.call fuel c = some r → ∀ o ∈ others r.trace, s.MayCall c o)
      Sys.init calls := by
  refine along_keeps (fun s c s' hc h hstep => ?_) (fun s c hc h r hr o ho => ?_) hcalls
    Sys.Inv.init
  · rcases Option.map_eq_some_iff.mp hstep with ⟨r, hr, rfl⟩
    exact h.call hc.1 hc.2 hr
  · exact h.mayCall hc.1 hc.2 hr ho

/-- A driver is unregistered while a file is open on it. -/
def removeCalls : List Call :=
  openCalls ++ [.unregisterDriver ['/', 'a'], .read 48 0, .close 48 0]

theorem removed_not_called_sample :
    Along (Sys.step 1)
        (fun s c => ∀ r, s.call 1 c = some r → ∀ o ∈ others r.trace, s.MayCall c o)
        Sys.init removeCalls ∧
      (run (Sys.step 1) Sys.init removeCalls).map (fun s => (s.removed, (s.slot 0).used)) =
        some ([0], none) := by
  refine ⟨removed_not_called ?_, by decide +kernel⟩
  refine ⟨⟨trivial, trivial⟩, fun s hs => ?_⟩
  cases hs
  refine ⟨⟨trivial, .inl ⟨0, ⟨['/', 'a'], .char, 0, true⟩, ⟨by decide, rfl⟩, .inr rfl⟩⟩,
    fun s _ => ⟨⟨trivial, trivial⟩, fun s _ => ⟨⟨trivial, trivial⟩, fun s _ =>
      ⟨⟨trivial, trivial⟩, fun _ _ => trivial⟩⟩⟩⟩

/-- The root file system is registered behind another one and unregistered. -/
def rootCalls : List Call :=
  [.registerFs ['/', 'a', 'b'], .registerFs ['/'], .unregisterFs ['/']]

/-- A path that only begins with the name of the other file system leads to the root file system
that was unregistered, or to a driver that was registered in its slot under another name. -/
theorem removed_called :
    (∃ s, run (Sys.step 1) Sys.init rootCalls = some s ∧ s.removed = [1] ∧
      others (vfsOpen s ['/', 'a', 'b', 'c'] 0).trace = [⟨.opens, 1, 1, 0⟩]) ∧
    ∃ s, run (Sys.step 1) Sys.init (rootCalls ++ [.registerDriver ['/', 'x']]) = some s ∧
      s.removed = [1] ∧ (s.slot 1).used = some (['/', 'x'], .char) ∧ (s.slot 1).reg = 2 ∧
      others (vfsOpen s ['/', 'a', 'b', 'c'] 0).trace = [⟨.opens, 1, 2, 0⟩] := by
  constructor <;> decide +kernel

end PineVoice.VfsSys
