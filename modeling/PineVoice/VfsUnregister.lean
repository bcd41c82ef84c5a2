import Mathlib.Data.List.Nodup
import Mathlib.Data.List.Pairwise
import PineVoice.VfsRefs
import PineVoice.VfsResolve

/-!
# The files that an unregistration closes

A node with open files is not deleted when it is unregistered: its close operation is called for
its files. They are looked for under the numbers from zero on, as descriptors, so the last slots
of the table are not looked at.
-/

namespace PineVoice.VfsSys

open LockTrace Transition Vfs VfsFile List Option

section Calls

/-- A file with a node is not redirected. -/
def Tidy (s : Files) : Prop := ∀ i k, (s.file i).node = .inode k → (s.file i).redirectFd < 0

/-- What holds between two calls of a single task. -/
structure Sys.Ok (s : Sys) : Prop where
  /-- The references agree with the file table. -/
  counted : s.Counted
  /-- The files. -/
  tidy : Tidy s.files

variable {s t : Sys} {i k : ℕ} {fd : ℤ} {trace : Trace}

theorem Sys.Ok.init : Sys.init.Ok := ⟨fun k => (entries_init k).symm, nofun⟩

theorem Sys.Ok.congr (h : s.Ok) (hslot : ∀ k, (t.slot k).refs = (s.slot k).refs)
    (hfile : t.files.file = s.files.file) : t.Ok := by
  refine ⟨h.counted.congr hslot hfile, ?_⟩
  unfold Tidy
  rw [hfile]
  exact h.tidy

theorem Sys.Ok.mark (h : s.Ok) (fd : ℤ) (b : Bool) : (s.mark fd b).Ok :=
  h.congr (fun k => by rw [mark_slot]) (mark_file s fd b)

theorem Sys.Ok.setSlot (h : s.Ok) {x : Slot} (hx : x.refs = (s.slot k).refs) :
    (s.setSlot k x).Ok := ⟨h.counted.setSlot hx, h.tidy⟩

theorem Tidy.setFile {s : Files} (h : Tidy s) {f : File}
    (hf : ∀ k, f.node = .inode k → f.redirectFd < 0) (i : ℕ) : Tidy (s.setFile i f) := by
  intro j k
  show (Function.update s.file i f j).node = _ → (Function.update s.file i f j).redirectFd < 0
  rw [Function.update_apply]
  split_ifs
  · exact hf k
  · exact h j k

theorem Sys.Ok.fileNew (h : s.Ok) (hnew : vfsFileNew s k = some (i, t, trace)) : t.Ok := by
  refine ⟨h.counted.fileNew hnew, ?_⟩
  rcases fileNew_slot hnew with ⟨-, -, rfl⟩
  exact h.tidy.setFile (f := ⟨.inode k, -1, s.files.openings⟩)
    (fun _ _ => show (-1 : ℤ) < 0 by decide) i

theorem Sys.Ok.fileDel (h : s.Ok) (hi : i < vfsMaxFileNum) : (vfsFileDel s i).1.Ok :=
  ⟨h.counted.fileDel hi, h.tidy.setFile (f := ⟨.null, -1, 0⟩) nofun i⟩

theorem Sys.Ok.closeFile (h : s.Ok) (hi : i < vfsMaxFileNum) (fd : ℤ) : (closeFile s fd i).1.Ok :=
  (h.mark fd false).fileDel hi

/-- A redirected descriptor has no node to count down for. -/
theorem clearNormalRedirectFd_eq (hget : vfsFileGet2 s.files fd = some i)
    (hnode : ∀ k, (s.files.file i).node ≠ .inode k) :
    (clearNormalRedirectFd s fd).sys = (VfsSys.closeFile s fd i).1 := by
  have hmark : s.mark fd false = { s with files := s.files.mark i false } := by
    rw [Sys.mark, (get2_eq_some.mp hget).1]
  have hunref : ∀ t : Sys, t.files.file i = s.files.file i → fileUnref t i = (t, []) := by
    intro t ht
    unfold fileUnref
    rw [ht]
    cases hcase : (s.files.file i).node with
    | inode k => exact absurd hcase (hnode k)
    | null => rfl
    | redirect => rfl
  rw [clearNormalRedirectFd, hget, VfsSys.closeFile, VfsSys.vfsFileDel, hmark, hunref]
  rfl

/-- The state after a registration. -/
def Sys.registered (s : Sys) (type : NodeType) (path : Path) (k : ℕ) : Sys :=
  { s.setSlot k ⟨some (path, type), (s.slot k).refs, true, s.regs⟩ with
    rootfs := if path = ['/'] then some k else s.rootfs
    regs := s.regs+1 }

/-- A registration takes a free slot or does nothing. -/
theorem vfsRegister_cases (type : NodeType) (s : Sys) (path : Path) :
    (vfsRegister type s path).sys = s ∨
      ∃ k, vfsInodeAlloc s.nodes vfsDeviceNodes 0 = some k ∧
        (vfsRegister type s path).sys = s.registered type path k := by
  fun_cases vfsRegister type s path with
  | case1 | case2 | case3 => exact .inl rfl
  | case4 _ _ k halloc => exact .inr ⟨k, halloc, rfl⟩

theorem vfsRegister_trace (type : NodeType) (s : Sys) (path : Path) :
    (vfsRegister type s path).trace = locked .vfs [] := by
  fun_cases vfsRegister type s path <;> rfl

/-- The calls that put a node or a file into the tables or take one out, or leave them alone. -/
def Call.Single : Call → Prop
  | .dup2 _ _ _ => False
  | _ => True

/-- What such a call does to the tables. -/
inductive Change (s : Sys) : Call → Sys → Prop
  /-- At most a standard stream is redirected. -/
  | stdio {c : Call} (f : ℤ → ℤ) : Change s c { s with stdio := f }
  /-- A node is put into a free slot. -/
  | registered {c : Call} (k : ℕ) (hfree : (s.slot k).used = none) (type : NodeType)
    (path : Path) : Change s c (s.registered type path k)
  /-- A node with references is marked. -/
  | marked {c : Call} (k : ℕ) : Change s c
    { s.setSlot k { s.slot k with valid := false } with removed := s.removedAt k ++ s.removed }
  /-- A node without references is taken out. -/
  | freed {c : Call} (k : ℕ) (hrefs : ¬0 < (s.slot k).refs) : Change s c
    { s.setSlot k { s.slot k with used := none } with removed := s.removedAt k ++ s.removed }
  /-- A file is opened. -/
  | opened {path : Path} {ret : ℤ} {k i : ℕ} {t : Sys} {trace : Trace}
    (hk : vfsInodeOpen s.nodes path = some k) (hnew : vfsFileNew s k = some (i, t, trace))
    (fd : ℤ) : Change s (.openFile path ret) (t.mark fd true)
  /-- The driver does not open the file, which is taken out again. -/
  | refused {path : Path} {ret : ℤ} {k i : ℕ} {t : Sys} {trace : Trace}
    (hk : vfsInodeOpen s.nodes path = some k) (hnew : vfsFileNew s k = some (i, t, trace)) :
    Change s (.openFile path ret) (vfsFileDel t i).1
  /-- A file is taken out. -/
  | closed {c : Call} {i : ℕ} (hi : i < vfsMaxFileNum) (fd : ℤ) : Change s c (closeFile s fd i).1
  /-- A free entry leads to another descriptor. -/
  | redirected {c : Call} (i : ℕ) (hfree : freeSlot s.files vfsMaxFileNum 0 = some i)
    (oldfd : ℤ) :
    Change s c { s with files := (s.files.setFile i ⟨.redirect, oldfd, 0⟩).mark i true }

theorem Change.same (s : Sys) (c : Call) : Change s c s := .stdio s.stdio

variable {c : Call} {fuel : ℕ} {r : Outcome}

theorem vfsRegister_change (type : NodeType) (s : Sys) (path : Path) :
    Change s c (vfsRegister type s path).sys := by
  rcases vfsRegister_cases type s path with heq | ⟨k, halloc, heq⟩ <;> rw [heq]
  · exact .same s c
  · have hnode : (s.slot k).inode = none := (alloc_some halloc).2
    exact .registered k (Option.map_eq_none_iff.mp hnode) type path

theorem vfsUnregister_change {path : Path} (hr : vfsUnregister s fuel path = some r)
    : Change s c r.sys := by
  revert hr
  fun_cases vfsUnregister s fuel path <;> intro hr
  case case1 =>
    cases hr
    exact .same s c
  case case2 k _ =>
    rcases Option.map_eq_some_iff.mp hr with ⟨d, hd, rfl⟩
    unfold vfsInodeDel at hd
    split_ifs at hd with hrefs
    · rcases Option.map_eq_some_iff.mp hd with ⟨closes, -, rfl⟩
      exact .marked k
    · cases hd
      exact .freed k hrefs

theorem vfsOpen_change (s : Sys) (path : Path) (ret : ℤ) :
    Change s (.openFile path ret) (vfsOpen s path ret).sys := by
  unfold vfsOpen
  split_ifs
  · exact .same s _
  · rcases openBegin_cases s path with ⟨err, heq⟩ | ⟨k, i, t, trace, hk, hnew, heq⟩ <;> rw [heq]
    · exact .same s _
    · dsimp only
      unfold openEnd
      split_ifs
      · exact .refused hk hnew
      · exact .opened hk hnew _

theorem vfsClose_change (htidy : Tidy s.files) {ret : ℤ} (hr : vfsClose s fd ret = some r)
    : Change s c r.sys := by
  revert hr
  fun_cases vfsClose s fd ret <;> rintro ⟨⟩
  case case1 => exact .stdio _
  case case2 => exact .same s c
  case case3 hbegin r =>
    rcases closeBegin_redirected hbegin with ⟨i, hget, hredirect⟩
    have hnode : ∀ k, (s.files.file i).node ≠ .inode k := fun k hk =>
      absurd hredirect (Int.not_le.mpr (htidy i k hk))
    rw [clearNormalRedirectFd_eq hget hnode]
    exact .closed (get2_lt hget) fd
  case case4 hbegin _ _ _ _ => exact .closed (get2_lt (closeBegin_begun hbegin).1) fd

theorem vfsDup_change (s : Sys) (oldfd : ℤ) : Change s c (vfsDup s oldfd).sys := by
  unfold vfsDup
  fun_cases VfsFile.vfsDup s.files oldfd with
  | case1 | case2 => exact .same s c
  | case3 _ _ i hfree => exact .redirected i hfree oldfd

/-- Every call is one of these changes. -/
theorem call_change (htidy : Tidy s.files) (hc : c.Single) (hr : s.call fuel c = some r)
    : Change s c r.sys := by
  cases c with
  | registerDriver path | registerFs path =>
    cases hr
    exact vfsRegister_change _ s path
  | unregisterDriver path | unregisterFs path => exact vfsUnregister_change hr
  | openFile path ret =>
    cases hr
    exact vfsOpen_change s path ret
  | close fd ret => exact vfsClose_change htidy hr
  | read | write | ioctl =>
    rcases Option.map_eq_some_iff.mp hr with ⟨-, -, rfl⟩
    exact .same s _
  | dup oldfd =>
    cases hr
    exact vfsDup_change s oldfd
  | dup2 oldfd newfd ret => exact hc.elim

theorem Sys.Ok.change (h : s.Ok) (hchange : Change s c t) : t.Ok := by
  cases hchange with
  | stdio f => exact h.congr (fun _ => rfl) rfl
  | registered k hfree type path =>
    exact (h.setSlot (k := k) (x := ⟨some (path, type), (s.slot k).refs, true, s.regs⟩) rfl).congr
      (fun _ => rfl) rfl
  | marked k =>
    exact (h.setSlot (k := k) (x := { s.slot k with valid := false }) rfl).congr
      (fun _ => rfl) rfl
  | freed k hrefs =>
    exact (h.setSlot (k := k) (x := { s.slot k with used := none }) rfl).congr (fun _ => rfl) rfl
  | opened hk hnew fd => exact (h.fileNew hnew).mark fd true
  | refused hk hnew => exact (h.fileNew hnew).fileDel (fileNew_slot hnew).1
  | closed hi fd => exact h.closeFile hi fd
  | redirected i hfree oldfd =>
    have hslot := freeSlot_some hfree
    refine ⟨fun k => ?_, h.tidy.setFile (f := ⟨.redirect, oldfd, 0⟩) nofun i⟩
    have hcount := entries_setFile (s := s.files) (i := i) (by omega) ⟨.redirect, oldfd, 0⟩ k
    have hold : onNode k (s.files.file i) = false := by
      rw [onNode, hslot.2]
      rfl
    rw [hold] at hcount
    exact (h.counted k).trans hcount.symm

theorem Sys.Ok.call (h : s.Ok) (hc : c.Single) (hr : s.call fuel c = some r) : r.sys.Ok :=
  h.change (call_change h.tidy hc hr)

end Calls

section Lookups

variable {s : Files} {fd : ℤ} {i j fuel : ℕ} {f : Option ℕ}

/-- A larger bound does not change a lookup that has ended. -/
theorem redirectLoop_mono : ∀ {fuel i : ℕ}, redirectLoop s fuel i = some f →
    ∀ {more : ℕ}, fuel ≤ more → redirectLoop s more i = some f
  | 0, _, h, _, _ => by cases h
  | fuel+1, i, h, 0, hle => absurd hle (Nat.not_succ_le_zero fuel)
  | fuel+1, i, h, more+1, hle => by
    rw [redirectLoop] at h ⊢
    by_cases hredirect : 0 ≤ (s.file i).redirectFd-vfsFdOffset
    · rw [if_pos hredirect] at h ⊢
      cases hget : vfsFileGet2 s (s.file i).redirectFd with
      | none =>
        rw [hget] at h
        exact h
      | some j =>
        rw [hget] at h
        exact redirectLoop_mono h (Nat.le_of_succ_le_succ hle)
    · rwa [if_neg hredirect] at h ⊢

theorem fileGet_mono (h : vfsFileGet s fuel fd = some f) {more : ℕ} (hle : fuel ≤ more) :
    vfsFileGet s more fd = some f := by
  unfold vfsFileGet at h ⊢
  cases hget : vfsFileGet2 s fd with
  | none =>
    rw [hget] at h
    exact h
  | some i =>
    rw [hget] at h
    exact redirectLoop_mono h hle

/-- The lookup of a descriptor ends, at a file or at nothing. -/
def Ends (s : Files) (fd : ℤ) : Prop := ∃ fuel f, vfsFileGet s fuel fd = some f

/-- A descriptor leads to a file. -/
def Leads (s : Files) (fd : ℤ) (i : ℕ) : Prop := ∃ fuel, vfsFileGet s fuel fd = some (some i)

theorem leads_iff (h : vfsFileGet s fuel fd = some f) : Leads s fd i ↔ f = some i := by
  constructor
  · rintro ⟨more, hmore⟩
    have hleft := fileGet_mono h (Nat.le_max_left fuel more)
    have hright := fileGet_mono hmore (Nat.le_max_right fuel more)
    exact Option.some.inj (hleft.symm.trans hright)
  · rintro rfl
    exact ⟨fuel, h⟩

/-- A descriptor leads to an open slot of the table. -/
theorem Leads.opened (h : Leads s fd i) : i < vfsMaxFileNum ∧ s.opened i = true := by
  have hloop : ∀ {fuel n : ℕ}, n < vfsMaxFileNum → s.opened n = true →
      redirectLoop s fuel n = some (some i) → i < vfsMaxFileNum ∧ s.opened i = true := by
    intro fuel
    induction fuel with
    | zero => exact fun _ _ h => nomatch h
    | succ fuel ih =>
      intro n hn hopen hloop
      rcases redirectLoop_next hloop with ⟨-, rfl, -⟩ | ⟨k, hnext, hk, hrest⟩
      · exact ⟨hn, hopen⟩
      · exact ih (get2_lt (get2_eq_some.mpr ⟨hnext.2, hk⟩)) hk hrest
  rcases h with ⟨fuel, hget⟩
  revert hget
  fun_cases vfsFileGet s fuel fd with
  | case1 => rintro ⟨⟩
  | case2 n hn => exact hloop (get2_lt hn) (get2_eq_some.mp hn).2

end Lookups

section Closing

variable {s : Sys} {fuel k : ℕ}

/-- A file that is open on a node. -/
def Sys.OpenOn (s : Sys) (k i : ℕ) : Prop :=
  i < vfsMaxFileNum ∧ s.files.opened i = true ∧ (s.files.file i).node = .inode k

instance (s : Sys) (k i : ℕ) : Decidable (s.OpenOn k i) := inferInstanceAs (Decidable (_ ∧ _ ∧ _))

/-- What one turn of the loop finds. -/
def closeTurn (s : Sys) (fuel k idx : ℕ) : Option ℕ :=
  (vfsFileGet s.files fuel idx).join.filter fun i => (s.files.file i).node = .inode k

theorem closeAllLoop_eq_some : ∀ {n idx : ℕ} {closes : List OpCall},
    closeAllLoop s fuel k n idx = some closes →
      (∀ m, idx ≤ m → m < idx+n → ∃ f, vfsFileGet s.files fuel m = some f) ∧
        closes = ((List.range' idx n).filterMap (closeTurn s fuel k)).map (s.opCall .closes k)
  | 0, _, _, h => by
    cases h
    exact ⟨fun m hle hlt => absurd hlt (Nat.not_lt.mpr hle), rfl⟩
  | n+1, idx, closes, h => by
    rcases Option.bind_eq_some_iff.mp h with ⟨f, hget, hmap⟩
    rcases Option.map_eq_some_iff.mp hmap with ⟨rest, hrest, rfl⟩
    rcases closeAllLoop_eq_some hrest with ⟨hends, rfl⟩
    refine ⟨fun m hle hlt => ?_, ?_⟩
    · rcases Nat.eq_or_lt_of_le hle with rfl | hless
      · exact ⟨f, hget⟩
      · exact hends m hless (by omega)
    · rw [List.range'_succ, List.filterMap_cons, closeTurn, hget]
      cases f with
      | none => rfl
      | some i =>
        by_cases hnode : (s.files.file i).node = .inode k
        · simp [Option.filter_some, hnode]
        · simp [Option.filter_some, hnode]

/-- The loop ends if all its lookups do. -/
theorem closeAllLoop_returns (k : ℕ) : ∀ (n idx : ℕ),
    (∀ m, idx ≤ m → m < idx+n → ∃ f, vfsFileGet s.files fuel m = some f) →
      ∃ closes, closeAllLoop s fuel k n idx = some closes
  | 0, _, _ => ⟨[], rfl⟩
  | n+1, idx, hends => by
    rcases hends idx (Nat.le_refl idx) (by omega) with ⟨f, hget⟩
    rcases closeAllLoop_returns k n (idx+1)
      (fun m hle hlt => hends m (by omega) (by omega)) with ⟨rest, hrest⟩
    rw [closeAllLoop, hget, Option.bind_some, hrest, Option.map_some]
    exact ⟨_, rfl⟩

/-- One bound is enough for finitely many lookups. -/
theorem ends_bound {s : Files} : ∀ {n : ℕ}, (∀ m : ℕ, m < n → Ends s m) →
    ∃ fuel, ∀ m : ℕ, m < n → ∃ f, vfsFileGet s fuel m = some f
  | 0, _ => ⟨0, fun m hm => absurd hm (Nat.not_lt_zero m)⟩
  | n+1, h => by
    rcases ends_bound (n := n) fun m hm => h m (Nat.lt_succ_of_lt hm) with ⟨fuel, hfuel⟩
    rcases h n (Nat.lt_succ_self n) with ⟨last, f, hget⟩
    refine ⟨max fuel last, fun m hm => ?_⟩
    rcases Nat.eq_or_lt_of_le (Nat.le_of_lt_succ hm) with rfl | hless
    · exact ⟨f, fileGet_mono hget (Nat.le_max_right ..)⟩
    · rcases hfuel m hless with ⟨f, hf⟩
      exact ⟨f, fileGet_mono hf (Nat.le_max_left ..)⟩

/-- The operations that were called are the close operation of the node for each file that is
open on it, each once. -/
def Sys.ClosesOnce (s : Sys) (k : ℕ) (trace : Trace) : Prop :=
  (others trace).Nodup ∧
    ∀ c, c ∈ others trace ↔ ∃ i, s.OpenOn k i ∧ c = s.opCall .closes k i

theorem opCall_injective (s : Sys) (op : Op) (k : ℕ) : Function.Injective (s.opCall op k) :=
  fun _ _ h => congrArg OpCall.file h

/-- One turn of the loop finds a file on the node. -/
theorem closeTurn_eq_some {m i : ℕ} {f : Option ℕ} (h : vfsFileGet s.files fuel m = some f) :
    closeTurn s fuel k m = some i ↔ Leads s.files m i ∧ s.OpenOn k i := by
  rw [closeTurn, h, leads_iff h, filter_eq_some_iff]
  constructor
  · rintro ⟨rfl, hnode⟩
    have hopened := Leads.opened ⟨fuel, h⟩
    exact ⟨rfl, hopened.1, hopened.2, of_decide_eq_true hnode⟩
  · rintro ⟨hf, hon⟩
    exact ⟨hf, decide_eq_true hon.2.2⟩

/-- What is taken from each element of a list occurs once if no two elements give the same. -/
theorem nodup_filterMap_iff {α β : Type*} {l : List α} (hl : l.Nodup) {f : α → Option β} :
    (l.filterMap f).Nodup ↔ ∀ a ∈ l, ∀ b ∈ l, ∀ x, f a = some x → f b = some x → a = b := by
  rw [List.Nodup, pairwise_filterMap]
  constructor
  · intro h a ha b hb x hfa hfb
    have hsymm : Std.Symm fun a b => ∀ x, f a = some x → ∀ y, f b = some y → x ≠ y :=
      ⟨fun a b hab y hy x hx => (hab x hx y hy).symm⟩
    by_contra hne
    exact h.forall ha hb hne x hfa x hfb rfl
  · intro h
    refine hl.pairwise_of_forall_ne fun a ha b hb hne x hx y hy hxy => ?_
    cases hxy
    exact hne (h a ha b hb x hx hy)

/-- Once all lookups have ended, the files are closed as they should be if and only if exactly
one number leads to each of them. -/
theorem closesOnce_iff (hends : ∀ m : ℕ, m < vfsMaxFileNum →
      ∃ f, vfsFileGet s.files fuel m = some f) {trace : Trace}
    (htrace : others trace =
      ((List.range' 0 vfsMaxFileNum).filterMap (closeTurn s fuel k)).map (s.opCall .closes k)) :
    s.ClosesOnce k trace ↔ ∀ i, s.OpenOn k i → ∃! m : ℕ, m < vfsMaxFileNum ∧ Leads s.files m i := by
  have hturn : ∀ m i, m < vfsMaxFileNum →
      (closeTurn s fuel k m = some i ↔ Leads s.files m i ∧ s.OpenOn k i) := fun m i hm => by
    rcases hends m hm with ⟨f, hf⟩
    exact closeTurn_eq_some hf
  have hrange : ∀ m, m ∈ List.range' 0 vfsMaxFileNum ↔ m < vfsMaxFileNum := fun m => by
    rw [← range_eq_range', mem_range]
  have hinj := opCall_injective s .closes k
  rw [Sys.ClosesOnce, htrace, nodup_map_iff hinj, nodup_filterMap_iff nodup_range']
  constructor
  · rintro ⟨hnodup, hmem⟩ i hon
    rcases List.mem_map.mp ((hmem _).mpr ⟨i, hon, rfl⟩) with ⟨i', hi', heq⟩
    cases hinj heq
    rcases List.mem_filterMap.mp hi' with ⟨m, hm, hfound⟩
    have hlt := (hrange m).mp hm
    refine ⟨m, ⟨hlt, ((hturn m i hlt).mp hfound).1⟩, fun m' hm' => ?_⟩
    have hfound' := (hturn m' i hm'.1).mpr ⟨hm'.2, hon⟩
    exact hnodup m' ((hrange m').mpr hm'.1) m hm i hfound' hfound
  · intro honce
    refine ⟨fun m hm m' hm' i hfound hfound' => ?_, fun c => ?_⟩
    · have h := (hturn m i ((hrange m).mp hm)).mp hfound
      have h' := (hturn m' i ((hrange m').mp hm')).mp hfound'
      exact (honce i h.2).unique ⟨(hrange m).mp hm, h.1⟩ ⟨(hrange m').mp hm', h'.1⟩
    · rw [List.mem_map]
      constructor
      · rintro ⟨i, hi, rfl⟩
        rcases List.mem_filterMap.mp hi with ⟨m, hm, hfound⟩
        exact ⟨i, ((hturn m i ((hrange m).mp hm)).mp hfound).2, rfl⟩
      · rintro ⟨i, hon, rfl⟩
        rcases (honce i hon).exists with ⟨m, hm, hleads⟩
        exact ⟨i, List.mem_filterMap.mpr ⟨m, (hrange m).mpr hm, (hturn m i hm).mpr ⟨hleads, hon⟩⟩,
          rfl⟩

variable {path : Path}

section

variable (hnode : vfsInodeOpen s.nodes path = some k)
include hnode

/-- The unregistration of a node with references. -/
theorem vfsUnregister_busy (hrefs : 0 < (s.slot k).refs) (fuel : ℕ) :
    vfsUnregister s fuel path = (closeAllFilesOnNode s fuel k).map fun closes =>
      ⟨{ s.setSlot k { s.slot k with valid := false } with removed := s.removedAt k ++ s.removed },
        locked .vfs (locked (.node k) (closes.map .other)), 0⟩ := by
  rw [vfsUnregister, hnode]
  dsimp only
  rw [vfsInodeDel, if_pos hrefs, Option.map_map]
  rfl

/-- It returns if all its lookups end. -/
theorem vfsUnregister_returns (hrefs : 0 < (s.slot k).refs)
    (hends : ∀ m : ℕ, m < vfsMaxFileNum → Ends s.files m) :
    ∃ fuel r, ∃ closes : List OpCall, vfsUnregister s fuel path = some r ∧
      r.trace = locked .vfs (locked (.node k) (closes.map .other)) := by
  rcases ends_bound hends with ⟨fuel, hfuel⟩
  rcases closeAllLoop_returns k vfsMaxFileNum 0 (fun m _ hlt => hfuel m (by omega)) with
    ⟨closes, hloop⟩
  have hr := vfsUnregister_busy hnode hrefs fuel
  rw [closeAllFilesOnNode, hloop] at hr
  exact ⟨fuel, _, closes, hr, rfl⟩

/-- An unregistration that returns has looked at all numbers. -/
theorem vfsUnregister_trace (hrefs : 0 < (s.slot k).refs) {r : Outcome}
    (hr : vfsUnregister s fuel path = some r) :
    (∀ m : ℕ, m < vfsMaxFileNum → ∃ f, vfsFileGet s.files fuel m = some f) ∧
      others r.trace = ((List.range' 0 vfsMaxFileNum).filterMap (closeTurn s fuel k)).map
          (s.opCall .closes k) := by
  rw [vfsUnregister_busy hnode hrefs] at hr
  rcases Option.map_eq_some_iff.mp hr with ⟨closes, hloop, rfl⟩
  rcases closeAllLoop_eq_some hloop with ⟨hends, hcloses⟩
  refine ⟨fun m hm => hends m (Nat.zero_le m) (by omega), ?_⟩
  rw [others_locked, others_locked, others_map, hcloses]

end

theorem refs_pos (h : s.Ok) (hopen : ∃ i, s.OpenOn k i) : 0 < (s.slot k).refs := by
  rcases hopen with ⟨i, hi, -, hnode⟩
  rw [h.counted k]
  exact entries_pos hi hnode

end Closing

/-- After any calls, to unregister a node with open files calls its close operation once for
each of them, and nothing else, if and only if the lookup ends for each number below 100 and
exactly one of these numbers leads to each of the files. -/
theorem unregister_closes_once_iff {bound : ℕ} {calls : List Call} {s : Sys}
    (hcalls : ∀ c ∈ calls, c.Single) (hrun : run (Sys.step bound) Sys.init calls = some s)
    {path : Path} {k : ℕ} (hnode : vfsInodeOpen s.nodes path = some k)
    (hopen : ∃ i, s.OpenOn k i) {c : Call}
    (hc : c = .unregisterDriver path ∨ c = .unregisterFs path) :
    (∃ fuel r, s.call fuel c = some r ∧ s.ClosesOnce k r.trace) ↔
      (∀ m : ℕ, m < vfsMaxFileNum → Ends s.files m) ∧
        ∀ i, s.OpenOn k i → ∃! m : ℕ, m < vfsMaxFileNum ∧ Leads s.files m i := by
  have hok : s.Ok := by
    refine run_keeps (fun t c t' hsingle ht hstep => ?_) (along_of_forall_mem hcalls) Sys.Ok.init
      hrun
    rcases Option.map_eq_some_iff.mp hstep with ⟨r, hr, rfl⟩
    exact ht.call hsingle hr
  have hrefs := refs_pos hok hopen
  have hcall : ∀ fuel, s.call fuel c = vfsUnregister s fuel path := fun fuel => by
    rcases hc with rfl | rfl <;> rfl
  constructor
  · rintro ⟨fuel, r, hr, honce⟩
    rw [hcall] at hr
    rcases vfsUnregister_trace hnode hrefs hr with ⟨hends, htrace⟩
    refine ⟨fun m hm => ⟨fuel, hends m hm⟩, (closesOnce_iff hends htrace).mp honce⟩
  · rintro ⟨hends, honce⟩
    rcases vfsUnregister_returns hnode hrefs hends with ⟨fuel, r, -, hr, -⟩
    rcases vfsUnregister_trace hnode hrefs hr with ⟨hends', htrace⟩
    exact ⟨fuel, r, (hcall fuel).trans hr, (closesOnce_iff hends' htrace).mpr honce⟩

/-- A driver is registered and a file is opened. -/
def openCalls : List Call := [.registerDriver ['/', 'a'], .openFile ['/', 'a'] 0]

/-- The state after these calls. -/
def oneFile : Sys := (vfsOpen sampleSys ['/', 'a'] 0).sys

theorem unregister_closes_once_sample :
    run (Sys.step 1) Sys.init openCalls = some oneFile ∧ oneFile.OpenOn 0 0 ∧
      ∃ fuel r, oneFile.call fuel (.unregisterDriver ['/', 'a']) = some r ∧
        oneFile.ClosesOnce 0 r.trace := by
  have hcalls : ∀ c ∈ openCalls, c.Single := by
    intro c hc
    simp only [openCalls, mem_cons, not_mem_nil, or_false] at hc
    rcases hc with rfl | rfl <;> trivial
  have hopen : oneFile.OpenOn 0 0 := by decide +kernel
  have hget : ∀ m : ℕ, m < 100 →
      vfsFileGet oneFile.files 1 m = some (if m = 48 then some 0 else none) := by
    decide +kernel
  have honly : ∀ i < 100, oneFile.OpenOn 0 i → i = 0 := by decide +kernel
  have hrun : run (Sys.step 1) Sys.init openCalls = some oneFile := rfl
  refine ⟨hrun, hopen, (unregister_closes_once_iff hcalls hrun (by decide +kernel)
    ⟨0, hopen⟩ (.inl rfl)).mpr ⟨fun m hm => ⟨1, _, hget m hm⟩, fun i hi => ?_⟩⟩
  cases honly i hi.1 hi
  refine ⟨48, ⟨by decide, 1, hget 48 (by decide)⟩, fun m hm => ?_⟩
  have hfound := (leads_iff (hget m hm.1)).mp hm.2
  split_ifs at hfound with heq
  exact heq

/-- The file has a duplicate. -/
def twoDescriptors : Sys := (vfsDup oneFile 48).sys

/-- The close operation is called for a file and once more for its duplicate, and it is not called
for the last of 53 files. -/
theorem unregister_closes_wrong :
    run (Sys.step 1) Sys.init (openCalls ++ [.dup 48]) = some twoDescriptors ∧
      twoDescriptors.OpenOn 0 0 ∧
      (twoDescriptors.call 2 (.unregisterDriver ['/', 'a'])).map (fun r => others r.trace) =
        some [⟨.closes, 0, 0, 0⟩, ⟨.closes, 0, 0, 0⟩] ∧
      (∀ fuel r, twoDescriptors.call fuel (.unregisterDriver ['/', 'a']) = some r →
        ¬twoDescriptors.ClosesOnce 0 r.trace) ∧
      ∃ s, run (Sys.step 1) Sys.init
          (.registerDriver ['/', 'a'] :: List.replicate 53 (.openFile ['/', 'a'] 0)) = some s ∧
        s.OpenOn 0 52 ∧
        (s.call 1 (.unregisterDriver ['/', 'a'])).map (fun r => (others r.trace).map OpCall.file) =
          some (List.range 52) := by
  have hnode : vfsInodeOpen twoDescriptors.nodes ['/', 'a'] = some 0 := by decide +kernel
  have hopen : twoDescriptors.OpenOn 0 0 := by decide +kernel
  refine ⟨rfl, hopen, by decide +kernel, fun fuel r hr honce => ?_, by decide +kernel⟩
  rcases vfsUnregister_trace hnode (by decide +kernel) hr with ⟨hends, htrace⟩
  have hunique := (closesOnce_iff hends htrace).mp honce 0 hopen
  have heq : 48 = 49 := hunique.unique ⟨by decide, 2, by decide +kernel⟩
    ⟨by decide, 2, by decide +kernel⟩
  exact absurd heq (by decide)

end PineVoice.VfsSys
