import PineVoice.VfsInode

/-!
# Which node a path is resolved to

A path should lead to the node it names, or else to the file system with the longest name that
ends in front of a slash of the path, or to the root. The lookup takes the first slot that fits
instead of the best one, and falls back on the root pointer whatever it points to.
-/

namespace PineVoice.Vfs

open Function Transition

/-- The table as the calls keep it while no file is open. -/
structure Nodes.Ok (s : Nodes) : Prop where
  /-- Nodes are in the table. -/
  inside : ∀ {i node}, s.node i = some node → i < vfsDeviceNodes
  /-- Names are absolute. -/
  absolute : ∀ {i node}, s.node i = some node → node.name.head? = some '/'
  /-- Names are distinct. -/
  distinct : ∀ {i j node other}, s.node i = some node → s.node j = some other →
    node.name = other.name → i = j
  /-- The root pointer points to the node named `/`, if there is one. -/
  root : ∀ {i node}, s.node i = some node → node.name = ['/'] → s.rootfs = some i
  /-- No file is open. -/
  closed : ∀ {i node}, s.node i = some node → node.refs = 0

section Reached

variable {s s' : Nodes} {path : Path}

theorem alloc_some : ∀ {k idx i : ℕ}, vfsInodeAlloc s k idx = some i → i < idx+k ∧ s.node i = none
  | 0, _, _, h => by cases h
  | k+1, idx, i, h => by
    rw [vfsInodeAlloc] at h
    cases hidx : s.node idx with
    | none =>
      rw [hidx] at h
      cases h
      exact ⟨by omega, hidx⟩
    | some node =>
      rw [hidx] at h
      have hrest := alloc_some h
      exact ⟨by omega, hrest.2⟩

variable {i : ℕ} {node : Inode}

/-- A node named by a path ends its lookup. -/
theorem open_isSome (hok : s.Ok) (hnode : s.node i = some node) (hname : node.name = path)
    : (vfsInodeOpen s path).isSome := by
  rcases exists_first_hit ⟨i, node, ⟨hok.inside hnode, hnode⟩, .inr hname⟩ with ⟨j, -, -, -, -, hopen⟩
  rw [hopen]
  rfl

theorem Nodes.Ok.insert (hok : s.Ok) {rootfs : Option ℕ} (hi : i < vfsDeviceNodes)
    (habs : node.name.head? = some '/') (hrefs : node.refs = 0)
    (hnew : ∀ j other, s.node j = some other → node.name ≠ other.name)
    (hroot : rootfs = if node.name = ['/'] then some i else s.rootfs) :
    Nodes.Ok ⟨update s.node i (some node), rootfs⟩ := by
  have hcases : ∀ {j other}, update s.node i (some node) j = some other →
      j = i ∧ other = node ∨ j ≠ i ∧ s.node j = some other := by
    intro j other hother
    by_cases hji : j = i
    · rw [hji, update_self] at hother
      exact .inl ⟨hji, (Option.some.inj hother).symm⟩
    · rw [update_of_ne hji] at hother
      exact .inr ⟨hji, hother⟩
  constructor
  · intro j other hother
    rcases hcases hother with ⟨rfl, -⟩ | ⟨-, hold⟩
    · exact hi
    · exact hok.inside hold
  · intro j other hother
    rcases hcases hother with ⟨-, rfl⟩ | ⟨-, hold⟩
    · exact habs
    · exact hok.absolute hold
  · intro j k first second hfirst hsecond hname
    rcases hcases hfirst with ⟨rfl, rfl⟩ | ⟨-, hfirst'⟩ <;>
      rcases hcases hsecond with ⟨rfl, rfl⟩ | ⟨-, hsecond'⟩
    · rfl
    · exact absurd hname (hnew k second hsecond')
    · exact absurd hname.symm (hnew j first hfirst')
    · exact hok.distinct hfirst' hsecond' hname
  · intro j other hother hname
    rcases hcases hother with ⟨rfl, rfl⟩ | ⟨-, hold⟩
    · rw [hroot, if_pos hname]
    · have hne : node.name ≠ ['/'] := fun h => hnew j other hold (h.trans hname.symm)
      rw [hroot, if_neg hne]
      exact hok.root hold hname
  · intro j other hother
    rcases hcases hother with ⟨-, rfl⟩ | ⟨-, hold⟩
    · exact hrefs
    · exact hok.closed hold

theorem Nodes.Ok.erase (hok : s.Ok) (i : ℕ) : Nodes.Ok { s with node := update s.node i none } := by
  have hold : ∀ {j other}, update s.node i none j = some other → s.node j = some other := by
    intro j other hother
    by_cases hji : j = i
    · rw [hji, update_self] at hother
      cases hother
    · rwa [update_of_ne hji] at hother
  constructor
  · exact fun h => hok.inside (hold h)
  · exact fun h => hok.absolute (hold h)
  · exact fun h h' => hok.distinct (hold h) (hold h')
  · exact fun h => hok.root (hold h)
  · exact fun h => hok.closed (hold h)

theorem Nodes.Ok.register (hok : s.Ok) (type : NodeType) (path : Path) :
    (vfsRegister type s path).1.Ok := by
  fun_cases vfsRegister type s path with
  | case1 => exact hok
  | case2 hopen =>
    fun_cases vfsInodeReserve s path type with
    | case1 | case2 => exact hok
    | case3 habs i halloc =>
      have hi := (alloc_some halloc).1
      refine hok.insert (by omega) (not_not.mp habs) rfl (fun j other hother hname => ?_) rfl
      have hsome := open_isSome hok hother hname.symm
      rw [hopen] at hsome
      cases hsome

theorem Nodes.Ok.release (hok : s.Ok) {path : Path} {r : Nodes × Ret}
    (h : vfsInodeRelease s path = some r) : r.1.Ok := by
  revert h
  fun_cases vfsInodeRelease s path with
  | case1 =>
    rintro ⟨⟩
    exact hok
  | case2 i =>
    fun_cases vfsInodeDel s i <;> rintro ⟨⟩
    case case2 node hnode hrefs =>
      rw [hok.closed hnode] at hrefs
      exact absurd hrefs (lt_irrefl 0)
    case case3 => exact hok.erase i

theorem Nodes.Ok.step (hok : s.Ok) {c : Call} (h : s.step c = some s') : s'.Ok := by
  rcases Option.map_eq_some_iff.mp h with ⟨r, hr, rfl⟩
  cases c with
  | registerDriver path =>
    cases hr
    exact hok.register .char path
  | registerFs path =>
    cases hr
    exact hok.register .fs path
  | unregisterDriver path => exact hok.release hr
  | unregisterFs path => exact hok.release hr

/-- The table after any calls. -/
theorem Nodes.Ok.run {calls : List Call} (h : run Nodes.step vfsInodeInit calls = some s) :
    s.Ok := by
  have hinit : vfsInodeInit.Ok := ⟨nofun, nofun, nofun, nofun, nofun⟩
  exact run_keeps (fun _ _ _ _ hok hstep => hok.step hstep) (along_true calls vfsInodeInit) hinit h

end Reached

/-- A file system that a path can lead to: the root, or one that covers the path. -/
def Inode.Mount (path : Path) (node : Inode) : Prop :=
  node.type = .fs ∧ node.name = ['/'] ∨ node.Covers path

/-- A node has the name. -/
def Nodes.Named (s : Nodes) (path : Path) : Prop := ∃ i node, s.node i = some node ∧ node.name = path

/-- What a path should be resolved to. -/
def Nodes.Resolves (s : Nodes) (path : Path) : Option ℕ → Prop
  | some i => ∃ node, s.node i = some node ∧ (node.name = path ∨ ¬s.Named path ∧
      node.Mount path ∧ ∀ j other, s.node j = some other → other.Mount path →
        other.name.length ≤ node.name.length)
  | none => ¬s.Named path ∧ ∀ i node, s.node i = some node → ¬node.Mount path

/-- The best of the nodes that end the lookup: the one with the name, or the file system with the
longest name that covers the path. -/
def Nodes.Best (s : Nodes) (path : Path) (node : Inode) : Prop :=
  node.name = path ∨ ¬s.Named path ∧ node.Covers path ∧
    ∀ i other, s.node i = some other → other.Covers path → other.name.length ≤ node.name.length

/-- The best node stands in front of all other file systems that cover the path. -/
def Nodes.BestFirst (s : Nodes) (path : Path) : Prop :=
  ∀ i node, s.node i = some node → s.Best path node →
    ∀ j other, j < i → s.node j = some other → ¬other.Covers path

/-- Where no node fits and no root file system is registered, the root pointer is not set, or
no file system begins the path as a string. -/
def Nodes.RootClear (s : Nodes) (path : Path) : Prop :=
  (∀ i node, s.node i = some node → ¬node.Hits path ∧ ¬(node.type = .fs ∧ node.name = ['/'])) →
    s.rootfs = none ∨ ∀ i node, s.node i = some node → ¬node.Begins path

section Resolve

variable {s : Nodes} {path : Path}

variable {i : ℕ} {node other : Inode}

/-- Two file systems that cover a path and have names of the same length are one. -/
theorem Nodes.Ok.covers_unique (hok : s.Ok) {j : ℕ} (hnode : s.node i = some node)
    (hother : s.node j = some other) (hcov : node.Covers path) (hcov' : other.Covers path)
    (hlen : node.name.length = other.name.length) : i = j := by
  have hname : node.name = other.name := by
    have hpre : node.name <+: path := (append_slash_prefix_iff.mp hcov.2).1
    have hpre' : other.name <+: path := (append_slash_prefix_iff.mp hcov'.2).1
    rw [List.prefix_iff_eq_take.mp hpre, List.prefix_iff_eq_take.mp hpre', hlen]
  exact hok.distinct hnode hother hname

/-- Among the file systems that cover a path one has the longest name. -/
theorem exists_longest (h : ∃ i node, s.node i = some node ∧ node.Covers path) :
    ∃ i node, s.node i = some node ∧ node.Covers path ∧
      ∀ j other, s.node j = some other → other.Covers path →
        other.name.length ≤ node.name.length := by
  classical
  have hbound : ∀ {i node}, s.node i = some node → node.Covers path →
      node.name.length ≤ path.length := fun _ hcov =>
    (append_slash_prefix_iff.mp hcov.2).1.length_le
  let P := fun n => ∃ i node, s.node i = some node ∧ node.Covers path ∧ node.name.length = n
  rcases h with ⟨i, node, hnode, hcov⟩
  have hP : P (Nat.findGreatest P path.length) :=
    Nat.findGreatest_spec (hbound hnode hcov) ⟨i, node, hnode, hcov, rfl⟩
  rcases hP with ⟨j, best, hbest, hcovers, hlen⟩
  refine ⟨j, best, hbest, hcovers, fun k other hother hcov' => ?_⟩
  rw [hlen]
  exact Nat.le_findGreatest (hbound hother hcov') ⟨k, other, hother, hcov', rfl⟩

/-- The root file system is the mount of every absolute path without another one. -/
theorem Nodes.Ok.mount_length (hok : s.Ok) (hnode : s.node i = some node)
    (hroot : other.name = ['/']) : other.name.length ≤ node.name.length := by
  have habs := hok.absolute hnode
  rw [hroot]
  cases hname : node.name with
  | nil =>
    rw [hname] at habs
    cases habs
  | cons c rest => exact Nat.succ_le_succ (Nat.zero_le _)

/-- When a node fits, the lookup is right exactly if the best one comes first. -/
theorem resolves_hit_iff (hok : s.Ok) (hnode : s.node i = some node) (hhit : node.Hits path)
    (hfirst : ∀ j other, j < i → s.node j = some other → ¬other.Hits path) :
    s.Resolves path (some i) ↔ s.BestFirst path := by
  constructor
  · rintro ⟨node', hnode', hright⟩
    rw [hnode] at hnode'
    cases hnode'
    intro j best hbest hisBest k other hk hother hcov
    have hij : i < j := by
      by_contra hnot
      exact hfirst k other (by omega) hother (.inl hcov)
    have hne : i ≠ j := ne_of_lt hij
    rcases hisBest with hname | ⟨hnamed, hbestCov, hlongest⟩
    · rcases hright with hname' | ⟨hnamed, -⟩
      · exact hne (hok.distinct hnode hbest (hname'.trans hname.symm))
      · exact hnamed ⟨j, best, hbest, hname⟩
    · rcases hright with hname' | ⟨-, -, hlong⟩
      · exact hnamed ⟨i, node, hnode, hname'⟩
      · rcases hhit with hnodeCov | hname'
        · have hle := hlongest i node hnode hnodeCov
          have hge := hlong j best hbest (.inr hbestCov)
          exact hne (hok.covers_unique hnode hbest hnodeCov hbestCov (by omega))
        · exact hnamed ⟨i, node, hnode, hname'⟩
  · intro hbest
    refine ⟨node, hnode, ?_⟩
    rcases hhit with hcov | hname
    · by_cases hnamed : s.Named path
      · rcases hnamed with ⟨j, named, hnamed, hname⟩
        rcases lt_trichotomy i j with hij | rfl | hji
        · exact absurd hcov (hbest j named hnamed (.inl hname) i node hij hnode)
        · rw [hnode] at hnamed
          cases hnamed
          exact .inl hname
        · exact absurd (.inr hname) (hfirst j named hji hnamed)
      · rcases exists_longest ⟨i, node, hnode, hcov⟩ with ⟨j, best, hbestNode, hbestCov, hlongest⟩
        have hij : i = j := by
          rcases lt_trichotomy i j with hij | rfl | hji
          · exact absurd hcov
              (hbest j best hbestNode (.inr ⟨hnamed, hbestCov, hlongest⟩) i node hij hnode)
          · rfl
          · exact absurd (.inl hbestCov) (hfirst j best hji hbestNode)
        subst hij
        rw [hnode] at hbestNode
        cases hbestNode
        refine .inr ⟨hnamed, .inr hcov, fun j other hother hmount => ?_⟩
        rcases hmount with ⟨-, hroot⟩ | hothercov
        · exact hok.mount_length hnode hroot
        · exact hlongest j other hother hothercov
    · exact .inl hname

/-- When no node fits, the lookup is right exactly if the root pointer is not followed without
a root. -/
theorem resolves_miss_iff (hok : s.Ok) (habs : path.head? = some '/')
    (hno : ∀ i node, s.node i = some node → ¬node.Hits path) :
    s.Resolves path (vfsInodeOpen s path) ↔ s.RootClear path := by
  have hnamed : ¬s.Named path := fun ⟨i, node, hnode, hname⟩ => hno i node hnode (.inr hname)
  have hno' : ∀ i other, s.Has i other → ¬other.Hits path := fun i other hhas => hno i other hhas.2
  by_cases hroot : ∃ i node, s.node i = some node ∧ node.type = .fs ∧ node.name = ['/']
  · rcases hroot with ⟨i, node, hnode, hfs, hname⟩
    have hbegins : node.Begins path := by
      refine ⟨hfs, ?_⟩
      cases path with
      | nil => cases habs
      | cons c rest =>
        cases habs
        rw [hname]
        exact ⟨rest, rfl⟩
    rw [open_root hno' ⟨i, node, ⟨hok.inside hnode, hnode⟩, hbegins⟩, hok.root hnode hname]
    refine iff_of_true ⟨node, hnode, .inr ⟨hnamed, .inl ⟨hfs, hname⟩, ?_⟩⟩ fun h => ?_
    · intro j other hother hmount
      rcases hmount with ⟨-, hroot⟩ | hcov
      · rw [hroot, hname]
      · exact absurd (.inl hcov) (hno j other hother)
    · exact absurd ⟨hfs, hname⟩ (h i node hnode).2
  · have hnoRoot : ∀ i node, s.node i = some node → ¬(node.type = .fs ∧ node.name = ['/']) :=
      fun i node hnode h => hroot ⟨i, node, hnode, h⟩
    have hnoMount : ∀ i node, s.node i = some node → ¬node.Mount path := by
      rintro i node hnode (h | hcov)
      · exact hnoRoot i node hnode h
      · exact hno i node hnode (.inl hcov)
    have hclear : s.RootClear path ↔
        (s.rootfs = none ∨ ∀ i node, s.node i = some node → ¬node.Begins path) :=
      ⟨fun h => h fun i node hnode => ⟨hno i node hnode, hnoRoot i node hnode⟩, fun h _ => h⟩
    rw [hclear]
    by_cases hbegins : ∃ i node, s.node i = some node ∧ node.Begins path
    · rcases hbegins with ⟨i, node, hnode, hnodeBegins⟩
      rw [open_root hno' ⟨i, node, ⟨hok.inside hnode, hnode⟩, hnodeBegins⟩]
      cases hptr : s.rootfs with
      | none => exact iff_of_true ⟨hnamed, hnoMount⟩ (.inl rfl)
      | some r =>
        refine iff_of_false ?_ ?_
        · rintro ⟨other, hother, hname | ⟨-, hmount, -⟩⟩
          · exact hnamed ⟨r, other, hother, hname⟩
          · exact hnoMount r other hother hmount
        · rintro (hnone | hnoBegins)
          · cases hnone
          · exact hnoBegins i node hnode hnodeBegins
    · have hnoBegins : ∀ i node, s.node i = some node → ¬node.Begins path :=
        fun i node hnode h => hbegins ⟨i, node, hnode, h⟩
      rw [open_none hno' fun i node hhas => hnoBegins i node hhas.2]
      exact iff_of_true ⟨hnamed, hnoMount⟩ (.inr hnoBegins)

end Resolve

/-- After any calls, an absolute path is resolved to the right node if and only if the best node
stands in front of the other file systems that cover the path, and the root pointer is not
followed without a root file system. -/
theorem vfsInodeOpen_resolves_iff {calls : List Call} {s : Nodes}
    (hrun : run Nodes.step vfsInodeInit calls = some s) {path : Path}
    (habs : path.head? = some '/') :
    s.Resolves path (vfsInodeOpen s path) ↔ s.BestFirst path ∧ s.RootClear path := by
  have hok := Nodes.Ok.run hrun
  by_cases hhit : ∃ i node, s.Has i node ∧ node.Hits path
  · rcases exists_first_hit hhit with ⟨i, node, hhas, hnode, hfirst, hopen⟩
    have hclear : s.RootClear path := fun h => absurd hnode (h i node hhas.2).1
    rw [hopen, resolves_hit_iff hok hhas.2 hnode hfirst, and_iff_left hclear]
  · have hno : ∀ i node, s.node i = some node → ¬node.Hits path :=
      fun i node hnode h => hhit ⟨i, node, ⟨hok.inside hnode, hnode⟩, h⟩
    have hbest : s.BestFirst path := by
      intro i node hnode hisBest
      rcases hisBest with hname | ⟨-, hcov, -⟩
      · exact absurd (.inr hname) (hno i node hnode)
      · exact absurd (.inl hcov) (hno i node hnode)
    rw [resolves_miss_iff hok habs hno, and_iff_right hbest]

/-- A mount in a mount, the inner one registered first. -/
def sampleCalls : List Call := [.registerFs "/a/b".toList, .registerFs "/a".toList]

theorem vfsInodeOpen_resolves_sample :
    ∃ s, run Nodes.step vfsInodeInit sampleCalls = some s ∧
      vfsInodeOpen s "/a/b/c".toList = some 0 ∧
      (s.Resolves "/a/b/c".toList (vfsInodeOpen s "/a/b/c".toList) ↔
        s.BestFirst "/a/b/c".toList ∧ s.RootClear "/a/b/c".toList) :=
  exists_some_and (by decide +kernel) fun _ hrun _ =>
    vfsInodeOpen_resolves_iff hrun (by decide +kernel)

/-- The outer mount takes a slot in front of the inner one. -/
def reuseCalls : List Call :=
  [.registerDriver "/x".toList, .registerFs "/a/b".toList, .unregisterDriver "/x".toList,
    .registerFs "/a".toList]

/-- A device named `/`, and a file system. -/
def rootDeviceCalls : List Call := [.registerFs "/ab".toList, .registerDriver "/".toList]

/-- The first path is in `/a/b` and leads to `/a`. The second one is in no mount and leads to
the device. -/
theorem vfsInodeOpen_misresolves :
    (∃ s, run Nodes.step vfsInodeInit reuseCalls = some s ∧
      ¬s.Resolves "/a/b/c".toList (vfsInodeOpen s "/a/b/c".toList)) ∧
    (∃ s, run Nodes.step vfsInodeInit rootDeviceCalls = some s ∧
      ¬s.Resolves "/abc".toList (vfsInodeOpen s "/abc".toList)) := by
  constructor
  · obtain ⟨s, hrun, hopen, houter, hinner⟩ : ∃ s, run Nodes.step vfsInodeInit reuseCalls = some s ∧
        vfsInodeOpen s "/a/b/c".toList = some 0 ∧
        s.node 0 = some ⟨"/a".toList, .fs, 0, true⟩ ∧
        s.node 1 = some ⟨"/a/b".toList, .fs, 0, true⟩ := by
      decide +kernel
    refine ⟨s, hrun, ?_⟩
    rw [hopen]
    rintro ⟨node, hnode, hright⟩
    rw [houter] at hnode
    cases hnode
    rcases hright with hname | ⟨-, -, hlongest⟩
    · exact absurd hname (by decide +kernel)
    · have hle := hlongest 1 _ hinner (.inr ⟨rfl, by decide +kernel⟩)
      exact absurd hle (by decide +kernel)
  · obtain ⟨s, hrun, hopen, hroot⟩ : ∃ s, run Nodes.step vfsInodeInit rootDeviceCalls = some s ∧
        vfsInodeOpen s "/abc".toList = some 1 ∧ s.node 1 = some ⟨"/".toList, .char, 0, true⟩ := by
      decide +kernel
    refine ⟨s, hrun, ?_⟩
    rw [hopen]
    rintro ⟨node, hnode, hright⟩
    rw [hroot] at hnode
    cases hnode
    rcases hright with hname | ⟨-, ⟨hfs, -⟩ | ⟨hfs, -⟩, -⟩
    · exact absurd hname (by decide +kernel)
    · cases hfs
    · cases hfs

end PineVoice.Vfs
