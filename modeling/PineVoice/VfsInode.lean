import Mathlib.Data.Nat.Find
import PineVoice.Transition

/-!
# The nodes of the virtual file system

Devices and file systems are registered under paths in a table with a fixed number of slots. The
lookup of a path takes the first node that fits. The root file system is found through a pointer
of its own, which is set when a node named `/` is registered and never cleared.
-/

namespace PineVoice.Vfs

open Transition List

/-- A path or a name. -/
abbrev Path := List Char

/-- `VFS_TYPE_CHAR_DEV` and `VFS_TYPE_FS_DEV`; a slot without a node is not initialised. -/
inductive NodeType where
  | char
  | fs
deriving DecidableEq

/-- `vfs_inode_t` of a slot that is in use. -/
structure Inode where
  /-- `i_name`. -/
  name : Path
  /-- `type`. -/
  type : NodeType
  /-- `refs`. -/
  refs : ℕ
  /-- `status` is `VFS_INODE_VALID`. -/
  valid : Bool
deriving DecidableEq

/-- `VFS_DEVICE_NODES`. -/
def vfsDeviceNodes : ℕ := 50

/-- The table of nodes. -/
structure Nodes where
  /-- `g_vfs_nodes`. -/
  node : ℕ → Option Inode
  /-- `g_rootfs_node`, by its slot. -/
  rootfs : Option ℕ

/-- `vfs_inode_init`. -/
def vfsInodeInit : Nodes := ⟨fun _ => none, none⟩

/-- The results. -/
inductive Ret where
  | ok
  | inval
  | nomem
  | nodev
deriving DecidableEq

/-- `vfs_inode_alloc`, with the number of slots from `idx` on. -/
def vfsInodeAlloc (s : Nodes) : ℕ → ℕ → Option ℕ
  | 0, _ => none
  | k+1, idx =>
    match s.node idx with
    | none => some idx
    | some _ => vfsInodeAlloc s k (idx+1)

/-- The loop of `vfs_inode_open`, with the number of slots from `idx` on. -/
def vfsInodeOpenLoop (s : Nodes) (path : Path) : ℕ → ℕ → Bool → Option ℕ
  | 0, _, fsMatch => if fsMatch then s.rootfs else none
  | k+1, idx, fsMatch =>
    match s.node idx with
    | none => vfsInodeOpenLoop s path k (idx+1) fsMatch
    | some node =>
      if node.type = .fs ∧ node.name <+: path then
        if path[node.name.length]? = some '/' then some idx
        else if node.name = path then some idx
        else vfsInodeOpenLoop s path k (idx+1) true
      else if node.name = path then some idx
      else vfsInodeOpenLoop s path k (idx+1) fsMatch

/-- `vfs_inode_open`: the slot of the node. -/
def vfsInodeOpen (s : Nodes) (path : Path) : Option ℕ :=
  vfsInodeOpenLoop s path vfsDeviceNodes 0 false

/-- `vfs_inode_reserve`, and the type that is set after it. -/
def vfsInodeReserve (s : Nodes) (path : Path) (type : NodeType) : Nodes × Ret :=
  if path.head? ≠ some '/' then (s, .inval)
  else
    match vfsInodeAlloc s vfsDeviceNodes 0 with
    | none => (s, .nomem)
    | some idx =>
      (⟨Function.update s.node idx (some ⟨path, type, 0, true⟩),
        if path = ['/'] then some idx else s.rootfs⟩, .ok)

/-- `vfs_inode_del`. A node with open files is marked and stays. The lock of a slot without a
node has been freed; what comes of its use is not defined. -/
def vfsInodeDel (s : Nodes) (idx : ℕ) : Option (Nodes × Ret) :=
  match s.node idx with
  | none => none
  | some node =>
    if 0 < node.refs then
      some ({ s with node := Function.update s.node idx (some { node with valid := false }) }, .ok)
    else some ({ s with node := Function.update s.node idx none }, .ok)

/-- `vfs_inode_release`. -/
def vfsInodeRelease (s : Nodes) (path : Path) : Option (Nodes × Ret) :=
  match vfsInodeOpen s path with
  | none => some (s, .nodev)
  | some idx => vfsInodeDel s idx

/-- The common part of the registrations. -/
def vfsRegister (type : NodeType) (s : Nodes) (path : Path) : Nodes × Ret :=
  match vfsInodeOpen s path with
  | some _ => (s, .inval)
  | none => vfsInodeReserve s path type

/-- `vfs_register_driver`. -/
def vfsRegisterDriver : Nodes → Path → Nodes × Ret := vfsRegister .char

/-- `vfs_register_fs`. -/
def vfsRegisterFs : Nodes → Path → Nodes × Ret := vfsRegister .fs

/-- `vfs_unregister_driver`. -/
def vfsUnregisterDriver : Nodes → Path → Option (Nodes × Ret) := vfsInodeRelease

/-- `vfs_unregister_fs`. -/
def vfsUnregisterFs : Nodes → Path → Option (Nodes × Ret) := vfsInodeRelease

/-- The calls. -/
inductive Call where
  | registerDriver (path : Path)
  | registerFs (path : Path)
  | unregisterDriver (path : Path)
  | unregisterFs (path : Path)
deriving DecidableEq

/-- A call; nothing if its outcome is not defined. -/
def Nodes.call (s : Nodes) : Call → Option (Nodes × Ret)
  | .registerDriver path => some (vfsRegisterDriver s path)
  | .registerFs path => some (vfsRegisterFs s path)
  | .unregisterDriver path => vfsUnregisterDriver s path
  | .unregisterFs path => vfsUnregisterFs s path

/-- The table after a call. -/
def Nodes.step (s : Nodes) (c : Call) : Option Nodes := (s.call c).map Prod.fst

section Lookup

variable {s : Nodes} {path : Path} {node other : Inode}

/-- A file system under whose name the path goes on behind a slash. -/
def Inode.Covers (path : Path) (node : Inode) : Prop :=
  node.type = .fs ∧ node.name ++ ['/'] <+: path

/-- A node that ends the lookup. -/
def Inode.Hits (path : Path) (node : Inode) : Prop := node.Covers path ∨ node.name = path

/-- A file system whose name is the beginning of the path, wherever it ends. -/
def Inode.Begins (path : Path) (node : Inode) : Prop := node.type = .fs ∧ node.name <+: path

theorem append_slash_prefix_iff {name path : Path} :
    name ++ ['/'] <+: path ↔ name <+: path ∧ path[name.length]? = some '/' := by
  constructor
  · rintro ⟨rest, rfl⟩
    rw [append_assoc]
    refine ⟨prefix_append .., ?_⟩
    rw [getElem?_append_right (Nat.le_refl _), Nat.sub_self]
    rfl
  · rintro ⟨⟨rest, rfl⟩, hslash⟩
    rw [getElem?_append_right (Nat.le_refl _), Nat.sub_self] at hslash
    cases rest with
    | nil => cases hslash
    | cons c rest =>
      cases hslash
      exact ⟨rest, by rw [append_assoc]; rfl⟩

/-- What the loop does at a slot in use. -/
theorem openLoop_some {idx : ℕ} (hnode : s.node idx = some node) (k : ℕ) (fsMatch : Bool) :
    (node.Hits path → vfsInodeOpenLoop s path (k+1) idx fsMatch = some idx) ∧
    (¬node.Hits path → (node.Begins path →
        vfsInodeOpenLoop s path (k+1) idx fsMatch = vfsInodeOpenLoop s path k (idx+1) true) ∧
      (¬node.Begins path →
        vfsInodeOpenLoop s path (k+1) idx fsMatch =
          vfsInodeOpenLoop s path k (idx+1) fsMatch)) := by
  have hcovers : node.Covers path ↔ node.Begins path ∧ path[node.name.length]? = some '/' := by
    rw [Inode.Covers, append_slash_prefix_iff, ← and_assoc]
    rfl
  rw [vfsInodeOpenLoop, hnode, Inode.Hits, hcovers]
  by_cases hbegins : node.Begins path
  · have hcond : node.type = .fs ∧ node.name <+: path := hbegins
    dsimp only
    rw [if_pos hcond]
    refine ⟨fun hhit => ?_, fun hhit => ⟨fun _ => ?_, fun hnot => absurd hbegins hnot⟩⟩
    · rcases hhit with ⟨-, hslash⟩ | hname
      · rw [if_pos hslash]
      · rw [if_pos hname, ite_self]
    · rw [if_neg fun hslash => hhit (.inl ⟨hbegins, hslash⟩), if_neg fun hname => hhit (.inr hname)]
  · have hcond : ¬(node.type = .fs ∧ node.name <+: path) := hbegins
    dsimp only
    rw [if_neg hcond]
    refine ⟨fun hhit => ?_, fun hhit => ⟨fun h => absurd h hbegins, fun _ => ?_⟩⟩
    · rcases hhit with ⟨h, -⟩ | hname
      · exact absurd h hbegins
      · rw [if_pos hname]
    · rw [if_neg fun hname => hhit (.inr hname)]

/-- The loop ends at the first node that it takes. -/
theorem openLoop_found : ∀ {k idx i : ℕ} {fsMatch : Bool}, idx ≤ i → i < idx+k →
    s.node i = some node → node.Hits path →
    (∀ j other, idx ≤ j → j < i → s.node j = some other → ¬other.Hits path) →
    vfsInodeOpenLoop s path k idx fsMatch = some i
  | 0, _, _, _, hle, hlt, _, _, _ => absurd hlt (Nat.not_lt.mpr hle)
  | k+1, idx, i, fsMatch, hle, hlt, hnode, hhit, hfirst => by
    rcases Nat.eq_or_lt_of_le hle with rfl | hless
    · exact (openLoop_some hnode k fsMatch).1 hhit
    · have hrest : ∀ m, vfsInodeOpenLoop s path k (idx+1) m = some i := fun m =>
        openLoop_found hless (by omega) hnode hhit
          fun j other hj hji => hfirst j other (Nat.le_of_succ_le hj) hji
      cases hidx : s.node idx with
      | none =>
        rw [vfsInodeOpenLoop, hidx]
        exact hrest fsMatch
      | some other =>
        have hother := (openLoop_some hidx k fsMatch).2
          (hfirst idx other (le_refl idx) hless hidx)
        by_cases hbegins : other.Begins path
        · exact (hother.1 hbegins).trans (hrest true)
        · exact (hother.2 hbegins).trans (hrest fsMatch)

/-- Without such a node the root pointer is taken if a file system begins the path. -/
theorem openLoop_root : ∀ {k idx : ℕ} {fsMatch : Bool},
    (∀ i other, idx ≤ i → i < idx+k → s.node i = some other → ¬other.Hits path) →
    (fsMatch = true ∨ ∃ i other, idx ≤ i ∧ i < idx+k ∧ s.node i = some other ∧ other.Begins path) →
    vfsInodeOpenLoop s path k idx fsMatch = s.rootfs
  | 0, idx, fsMatch, _, hmatch => by
    rcases hmatch with rfl | ⟨i, _, hle, hlt, -⟩
    · rfl
    · omega
  | k+1, idx, fsMatch, hno, hmatch => by
    have hrest : ∀ m, (m = true ∨ ∃ i other, idx+1 ≤ i ∧ i < idx+1+k ∧ s.node i = some other ∧
        other.Begins path) → vfsInodeOpenLoop s path k (idx+1) m = s.rootfs := fun m hm =>
      openLoop_root (fun i other hi hlt => hno i other (by omega) (by omega)) hm
    cases hidx : s.node idx with
    | none =>
      rw [vfsInodeOpenLoop, hidx]
      refine hrest fsMatch (hmatch.imp_right ?_)
      rintro ⟨i, other, hle, hlt, hnode, hbegins⟩
      have hne : idx ≠ i := by
        rintro rfl
        rw [hidx] at hnode
        cases hnode
      exact ⟨i, other, by omega, by omega, hnode, hbegins⟩
    | some other =>
      have hother := (openLoop_some hidx k fsMatch).2
        (hno idx other (le_refl idx) (by omega) hidx)
      by_cases hbegins : other.Begins path
      · exact (hother.1 hbegins).trans (hrest true (.inl rfl))
      · refine (hother.2 hbegins).trans (hrest fsMatch (hmatch.imp_right ?_))
        rintro ⟨i, next, hle, hlt, hnode, hnext⟩
        have hne : idx ≠ i := by
          rintro rfl
          rw [hidx] at hnode
          cases hnode
          exact hbegins hnext
        exact ⟨i, next, by omega, by omega, hnode, hnext⟩

theorem openLoop_none : ∀ {k idx : ℕ},
    (∀ i other, idx ≤ i → i < idx+k → s.node i = some other →
      ¬other.Hits path ∧ ¬other.Begins path) →
    vfsInodeOpenLoop s path k idx false = none
  | 0, _, _ => rfl
  | k+1, idx, hno => by
    have hrest : vfsInodeOpenLoop s path k (idx+1) false = none :=
      openLoop_none fun i other hi hlt => hno i other (by omega) (by omega)
    cases hidx : s.node idx with
    | none =>
      rw [vfsInodeOpenLoop, hidx]
      exact hrest
    | some other =>
      rcases hno idx other (le_refl idx) (by omega) hidx with ⟨hhit, hbegins⟩
      exact (((openLoop_some hidx k false).2 hhit).2 hbegins).trans hrest

/-- A slot holds a node. -/
def Nodes.Has (s : Nodes) (i : ℕ) (node : Inode) : Prop := i < vfsDeviceNodes ∧ s.node i = some node

theorem open_hit {i : ℕ} (hhas : s.Has i node) (hhit : node.Hits path)
    (hfirst : ∀ j other, j < i → s.node j = some other → ¬other.Hits path) :
    vfsInodeOpen s path = some i :=
  openLoop_found (Nat.zero_le i) (by rw [Nat.zero_add]; exact hhas.1) hhas.2 hhit
    fun j other _ hji => hfirst j other hji

theorem open_root (hno : ∀ i other, s.Has i other → ¬other.Hits path)
    (hbegins : ∃ i other, s.Has i other ∧ other.Begins path) : vfsInodeOpen s path = s.rootfs := by
  refine openLoop_root (fun i other _ hlt hnode => hno i other ⟨by omega, hnode⟩) (.inr ?_)
  rcases hbegins with ⟨i, other, hhas, hother⟩
  exact ⟨i, other, Nat.zero_le i, by rw [Nat.zero_add]; exact hhas.1, hhas.2, hother⟩

theorem open_none (hno : ∀ i other, s.Has i other → ¬other.Hits path)
    (hbegins : ∀ i other, s.Has i other → ¬other.Begins path) : vfsInodeOpen s path = none :=
  openLoop_none fun i other _ hlt hnode =>
    ⟨hno i other ⟨by omega, hnode⟩, hbegins i other ⟨by omega, hnode⟩⟩

/-- A lookup that comes to a node ends at the first one. -/
theorem exists_first_hit (h : ∃ i other, s.Has i other ∧ other.Hits path) :
    ∃ i other, s.Has i other ∧ other.Hits path ∧
      (∀ j next, j < i → s.node j = some next → ¬next.Hits path) ∧
      vfsInodeOpen s path = some i := by
  classical
  rcases Nat.find_spec h with ⟨other, hhas, hhit⟩
  have hfirst : ∀ j next, j < Nat.find h → s.node j = some next → ¬next.Hits path := by
    intro j next hj hnode hnext
    exact Nat.find_min h hj ⟨next, ⟨lt_trans hj hhas.1, hnode⟩, hnext⟩
  exact ⟨Nat.find h, other, hhas, hhit, hfirst, open_hit hhas hhit hfirst⟩

end Lookup

section Available

/-- The loop of `vfs_inode_avail_count`, with the rounds that are left: each one looks at the slot
`count`. -/
def availCountLoop (s : Nodes) : ℕ → ℕ → ℕ
  | 0, count => count
  | k+1, count => availCountLoop s k (if (s.node count).isNone then count+1 else count)

/-- `vfs_inode_avail_count`. -/
def vfsInodeAvailCount (s : Nodes) : ℕ := availCountLoop s vfsDeviceNodes 0

/-- The number of slots that are not in use. -/
def Nodes.freeSlots (s : Nodes) : ℕ := (range vfsDeviceNodes).countP fun i => (s.node i).isNone

variable {s : Nodes}

theorem availCountLoop_free {n count : ℕ} (h : ∀ i < n, s.node (count+i) = none) (k : ℕ) :
    availCountLoop s (n+k) count = availCountLoop s k (count+n) := by
  induction n generalizing count with
  | zero => rw [Nat.zero_add, Nat.add_zero]
  | succ n ih =>
    have hrest (i : ℕ) (hi : i < n) : s.node (count+1+i) = none := by
      rw [Nat.add_right_comm, Nat.add_assoc]
      exact h (i+1) (Nat.succ_lt_succ hi)
    have hfirst : s.node count = none := h 0 n.succ_pos
    rw [Nat.succ_add, availCountLoop, hfirst, Option.isNone_none, if_pos rfl, ih hrest]
    rw [Nat.add_right_comm, Nat.add_assoc]

theorem availCountLoop_used {count : ℕ} (h : s.node count ≠ none) (k : ℕ) :
    availCountLoop s k count = count := by
  induction k with
  | zero => rfl
  | succ k ih => simp [availCountLoop, h, ih]

/-- The slots before the first one in use are counted, so the count is that of the free slots
exactly if no free slot is behind one in use. -/
theorem vfsInodeAvailCount_iff (s : Nodes) :
    vfsInodeAvailCount s = s.freeSlots ↔
      ∀ i j, i < j → j < vfsDeviceNodes → s.node j = none → s.node i = none := by
  by_cases hall : ∀ i < vfsDeviceNodes, s.node i = none
  · have hcount : vfsInodeAvailCount s = vfsDeviceNodes := by
      rw [vfsInodeAvailCount, ← Nat.add_zero vfsDeviceNodes,
        availCountLoop_free (by simpa using hall)]
      exact Nat.zero_add _
    have hfree : s.freeSlots = vfsDeviceNodes := by
      rw [Nodes.freeSlots, countP_eq_length.mpr (by simpa using hall), length_range]
    exact iff_of_true (hcount.trans hfree.symm) fun i j hij hj _ => hall i (Nat.lt_trans hij hj)
  · push Not at hall
    have hused := Nat.find_spec hall
    have hbelow (i : ℕ) (hi : i < Nat.find hall) : s.node i = none := by
      by_contra hne
      exact Nat.find_min hall hi ⟨Nat.lt_trans hi hused.1, hne⟩
    generalize Nat.find hall = n at hused hbelow
    obtain ⟨k, hk⟩ := Nat.exists_eq_add_of_le (Nat.le_of_lt hused.1)
    have hcount : vfsInodeAvailCount s = n := by
      rw [vfsInodeAvailCount, hk, availCountLoop_free (by simpa using hbelow), Nat.zero_add,
        availCountLoop_used hused.2]
    have hfree : s.freeSlots = n+(range k).countP fun i => (s.node (n+i)).isNone := by
      rw [Nodes.freeSlots, hk, range_add, countP_append, countP_map,
        countP_eq_length.mpr (by simpa using hbelow), length_range]
      rfl
    rw [hcount, hfree, Nat.left_eq_add, countP_eq_zero]
    constructor
    · intro h i j hij hj hfreej
      rcases Nat.lt_or_ge j n with hlt | hge
      · exact hbelow i (Nat.lt_trans hij hlt)
      · have hfalse := h (j-n) (mem_range.mpr (by omega))
        simp [Nat.add_sub_cancel' hge, hfreej] at hfalse
    · intro h i hi hfreei
      rcases Nat.eq_zero_or_pos i with rfl | hpos
      · simp [hused.2] at hfreei
      · refine hused.2 (h n (n+i) (Nat.lt_add_of_pos_right hpos) ?_ (by simpa using hfreei))
        rw [mem_range] at hi
        omega

/-- With one device there are 49 free slots, and none is counted. -/
theorem vfsInodeAvailCount_none :
    ∃ s, run Nodes.step vfsInodeInit [.registerDriver ['/', 'a']] = some s ∧
      vfsInodeAvailCount s = 0 ∧ s.freeSlots = 49 := by
  decide +kernel

end Available

end PineVoice.Vfs
