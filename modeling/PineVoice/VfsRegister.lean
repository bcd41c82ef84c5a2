import PineVoice.VfsResolve

/-!
# Registrations as a map keyed by path

A registration is refused whenever the lookup of its path leads anywhere, and an unregistration
takes out whatever node it leads to. So a call keeps to the law of a map exactly if its lookup
ends at the node with the name, or nowhere.
-/

namespace PineVoice.Vfs

open Function Transition

/-- A node of a type has the name. -/
def Nodes.Holds (s : Nodes) (name : Path) (type : NodeType) : Prop :=
  ∃ i node, s.node i = some node ∧ node.name = name ∧ node.type = type

/-- A registration adds the path if it is new, and changes nothing else. -/
def Nodes.RegisterLaw (s : Nodes) (path : Path) (type : NodeType) (r : Nodes × Ret) : Prop :=
  (r.2 = .ok ↔ ¬s.Named path) ∧
    ∀ name t, r.1.Holds name t ↔ r.2 = .ok ∧ name = path ∧ t = type ∨ s.Holds name t

/-- An unregistration succeeds if the path is there, and takes out this path and no other. -/
def Nodes.UnregisterLaw (s : Nodes) (path : Path) (r : Option (Nodes × Ret)) : Prop :=
  ∃ s' ret, r = some (s', ret) ∧ (ret = .ok ↔ s.Named path) ∧
    ∀ name t, s'.Holds name t ↔ name ≠ path ∧ s.Holds name t

/-- A call keeps to the law of a map. -/
def Nodes.Lawful (s : Nodes) : Call → Prop
  | .registerDriver path => s.RegisterLaw path .char (vfsRegisterDriver s path)
  | .registerFs path => s.RegisterLaw path .fs (vfsRegisterFs s path)
  | .unregisterDriver path => s.UnregisterLaw path (vfsUnregisterDriver s path)
  | .unregisterFs path => s.UnregisterLaw path (vfsUnregisterFs s path)

/-- The lookup of a call ends at the node with the name or nowhere; a registration that is to be
refused may end anywhere. -/
def Nodes.Plain (s : Nodes) : Call → Prop
  | .registerDriver path | .registerFs path => vfsInodeOpen s path = none ∨ s.Named path
  | .unregisterDriver path | .unregisterFs path =>
    ∀ i, vfsInodeOpen s path = some i → ∃ node, s.node i = some node ∧ node.name = path

/-- The path of a call. -/
def Call.path : Call → Path
  | .registerDriver path | .registerFs path | .unregisterDriver path | .unregisterFs path => path

/-- A call registers a path. -/
def Call.Registers : Call → Prop
  | .registerDriver _ | .registerFs _ => True
  | .unregisterDriver _ | .unregisterFs _ => False

/-- A slot is free. -/
def Nodes.Free (s : Nodes) : Prop := ∃ i < vfsDeviceNodes, s.node i = none

section Law

variable {s : Nodes} {path : Path}

theorem alloc_isSome : ∀ {k idx i : ℕ}, idx ≤ i → i < idx+k → s.node i = none →
    (vfsInodeAlloc s k idx).isSome
  | 0, _, _, hle, hlt, _ => absurd hlt (Nat.not_lt.mpr hle)
  | k+1, idx, i, hle, hlt, hfree => by
    rw [vfsInodeAlloc]
    cases hidx : s.node idx with
    | none => rfl
    | some node =>
      have hne : idx ≠ i := by
        rintro rfl
        rw [hidx] at hfree
        cases hfree
      exact alloc_isSome (by omega) (by omega) hfree

theorem Nodes.Holds.named {type : NodeType} (h : s.Holds path type) : s.Named path := by
  rcases h with ⟨i, node, hnode, hname, -⟩
  exact ⟨i, node, hnode, hname⟩

/-- Where the lookup ends nowhere, no node has the name. -/
theorem not_named (hok : s.Ok) (hopen : vfsInodeOpen s path = none) : ¬s.Named path := by
  rintro ⟨i, node, hnode, hname⟩
  have hsome := open_isSome hok hnode hname
  rw [hopen] at hsome
  cases hsome

/-- The nodes of a table with one more. -/
theorem holds_insert {i : ℕ} {node : Inode} {rootfs : Option ℕ} (hfree : s.node i = none)
    (name : Path) (t : NodeType) :
    Nodes.Holds ⟨update s.node i (some node), rootfs⟩ name t ↔
      name = node.name ∧ t = node.type ∨ s.Holds name t := by
  constructor
  · rintro ⟨j, other, hother, hname, htype⟩
    by_cases hji : j = i
    · dsimp only at hother
      rw [hji, update_self] at hother
      cases hother
      exact .inl ⟨hname.symm, htype.symm⟩
    · dsimp only at hother
      rw [update_of_ne hji] at hother
      exact .inr ⟨j, other, hother, hname, htype⟩
  · rintro (⟨rfl, rfl⟩ | ⟨j, other, hother, hname, htype⟩)
    · exact ⟨i, node, update_self .., rfl, rfl⟩
    · have hji : j ≠ i := by
        rintro rfl
        rw [hfree] at hother
        cases hother
      exact ⟨j, other, (update_of_ne hji ..).trans hother, hname, htype⟩

/-- The nodes of a table with one less. -/
theorem holds_erase (hok : s.Ok) {i : ℕ} {node : Inode} (hnode : s.node i = some node)
    (name : Path) (t : NodeType) :
    Nodes.Holds { s with node := update s.node i none } name t ↔
      name ≠ node.name ∧ s.Holds name t := by
  constructor
  · rintro ⟨j, other, hother, hname, htype⟩
    by_cases hji : j = i
    · dsimp only at hother
      rw [hji, update_self] at hother
      cases hother
    · dsimp only at hother
      rw [update_of_ne hji] at hother
      refine ⟨fun h => hji (hok.distinct hother hnode (hname.trans h)), ?_⟩
      exact ⟨j, other, hother, hname, htype⟩
  · rintro ⟨hne, j, other, hother, hname, htype⟩
    have hji : j ≠ i := by
      rintro rfl
      rw [hnode] at hother
      cases hother
      exact hne hname.symm
    exact ⟨j, other, (update_of_ne hji ..).trans hother, hname, htype⟩

/-- A registration keeps to the law if its lookup ends nowhere, or if it is to be refused. -/
theorem registerLaw_iff (hok : s.Ok) (hfree : s.Free) (habs : path.head? = some '/')
    (type : NodeType) :
    s.RegisterLaw path type (vfsRegister type s path) ↔
      vfsInodeOpen s path = none ∨ s.Named path := by
  unfold vfsRegister
  cases hopen : vfsInodeOpen s path with
  | some i =>
    rw [or_iff_right (Option.some_ne_none i)]
    constructor
    · intro hlaw
      by_contra hnamed
      cases hlaw.1.mpr hnamed
    · intro hnamed
      refine ⟨⟨nofun, fun hnot => absurd hnamed hnot⟩, fun name t => ?_⟩
      exact ⟨.inr, fun h => h.resolve_left nofun⟩
  | none =>
    have hnamed := not_named hok hopen
    refine iff_of_true ?_ (.inl rfl)
    rcases hfree with ⟨i, hi, hnone⟩
    have hsome : (vfsInodeAlloc s vfsDeviceNodes 0).isSome :=
      alloc_isSome (Nat.zero_le i) (by omega) hnone
    rcases Option.isSome_iff_exists.mp hsome with ⟨idx, halloc⟩
    dsimp only [vfsInodeReserve]
    rw [if_neg (not_not.mpr habs), halloc]
    refine ⟨⟨fun _ => hnamed, fun _ => rfl⟩, fun name t => ?_⟩
    rw [and_iff_right rfl]
    exact holds_insert (alloc_some halloc).2 name t

/-- An unregistration keeps to the law if its lookup ends at the node with the name or
nowhere. -/
theorem unregisterLaw_iff (hok : s.Ok) :
    s.UnregisterLaw path (vfsInodeRelease s path) ↔
      ∀ i, vfsInodeOpen s path = some i → ∃ node, s.node i = some node ∧ node.name = path := by
  unfold vfsInodeRelease
  cases hopen : vfsInodeOpen s path with
  | none =>
    have hnamed := not_named hok hopen
    refine iff_of_true ⟨s, .nodev, rfl, ⟨nofun, fun h => absurd h hnamed⟩, fun name t => ?_⟩ nofun
    refine ⟨fun h => ⟨?_, h⟩, And.right⟩
    rintro rfl
    exact hnamed h.named
  | some i =>
    dsimp only [vfsInodeDel]
    cases hnode : s.node i with
    | none =>
      refine iff_of_false ?_ ?_
      · rintro ⟨s', ret, hnone, -⟩
        cases hnone
      · intro h
        rcases h i rfl with ⟨node, hsome, -⟩
        rw [hnode] at hsome
        cases hsome
    | some node =>
      have hrefs : ¬0 < node.refs := by
        rw [hok.closed hnode]
        exact Nat.lt_irrefl 0
      dsimp only
      rw [if_neg hrefs]
      constructor
      · rintro ⟨s', ret, hres, hret, hrest⟩ j hj
        cases hres
        cases hj
        refine ⟨node, hnode, ?_⟩
        rcases hret.mp rfl with ⟨j, named, hnamed, hname⟩
        by_contra hne
        have hstill : Nodes.Holds { s with node := update s.node i none } path named.type :=
          (holds_erase hok hnode path named.type).mpr
            ⟨fun h => hne h.symm, j, named, hnamed, hname, rfl⟩
        exact ((hrest path named.type).mp hstill).1 rfl
      · intro h
        rcases h i rfl with ⟨other, hother, hname⟩
        rw [hnode] at hother
        cases hother
        refine ⟨_, .ok, rfl, ⟨fun _ => ⟨i, node, hnode, hname⟩, fun _ => rfl⟩, fun name t => ?_⟩
        rw [holds_erase hok hnode, hname]

end Law

/-- After any calls, a call on an absolute path, made while a slot is free if it is a
registration, keeps to the law of a map keyed by path if and only if its lookup is plain. -/
theorem call_lawful_iff {calls : List Call} {s : Nodes}
    (hrun : run Nodes.step vfsInodeInit calls = some s) {c : Call}
    (habs : c.path.head? = some '/') (hfree : c.Registers → s.Free) : s.Lawful c ↔ s.Plain c := by
  have hok := Nodes.Ok.run hrun
  cases c with
  | registerDriver path => exact registerLaw_iff hok (hfree trivial) habs .char
  | registerFs path => exact registerLaw_iff hok (hfree trivial) habs .fs
  | unregisterDriver path => exact unregisterLaw_iff hok
  | unregisterFs path => exact unregisterLaw_iff hok

/-- With the inner mount there, the outer one can be registered. -/
theorem call_lawful_sample :
    ∃ s, run Nodes.step vfsInodeInit [.registerFs "/a/b".toList] = some s ∧
      (s.Lawful (.registerFs "/a".toList) ↔ s.Plain (.registerFs "/a".toList)) ∧
      vfsInodeOpen s "/a".toList = none := by
  obtain ⟨s, hrun, hopen, hfree⟩ : ∃ s, run Nodes.step vfsInodeInit
      [.registerFs "/a/b".toList] = some s ∧ vfsInodeOpen s "/a".toList = none ∧
        s.node 1 = none := by
    decide +kernel
  have hlawful := @call_lawful_iff [.registerFs "/a/b".toList] s hrun (.registerFs "/a".toList)
    (by decide +kernel) fun _ => ⟨1, by decide, hfree⟩
  exact ⟨s, hrun, hlawful, hopen⟩

/-- A table with the file system `/a` only. -/
def sampleNodes : Nodes :=
  ⟨update vfsInodeInit.node 0 (some ⟨"/a".toList, .fs, 0, true⟩), none⟩

theorem sampleNodes_named {name : Path} (h : sampleNodes.Named name) : name = "/a".toList := by
  rcases h with ⟨i, node, hnode, rfl⟩
  by_cases hi : i = 0
  · rw [hi] at hnode
    cases hnode
    rfl
  · have hnone : sampleNodes.node i = none := update_of_ne hi ..
    rw [hnone] at hnode
    cases hnode

/-- With `/a` there, `/a/b` cannot be registered, and to unregister `/a/b` takes out `/a`. -/
theorem call_not_lawful :
    run Nodes.step vfsInodeInit [.registerFs "/a".toList] = some sampleNodes ∧
      ¬sampleNodes.Lawful (.registerFs "/a/b".toList) ∧
      ¬sampleNodes.Lawful (.unregisterFs "/a/b".toList) := by
  have hnamed : ¬sampleNodes.Named "/a/b".toList := fun h =>
    absurd (sampleNodes_named h) (by decide +kernel)
  refine ⟨rfl, fun hlaw => ?_, ?_⟩
  · have hok := hlaw.1.mpr hnamed
    cases hok
  · rintro ⟨s', ret, hres, hret, -⟩
    have hok : ret = .ok := by
      cases hres
      rfl
    exact hnamed (hret.mp hok)

end PineVoice.Vfs
