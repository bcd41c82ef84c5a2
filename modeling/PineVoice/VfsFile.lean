import Mathlib.Data.Int.Notation
import PineVoice.Transition

/-!
# The open files of the virtual file system

A descriptor is the number of a slot in the table of files; a slot is free if its node is `NULL`.
A duplicate has a slot of its own that stores the number of another descriptor, which is followed
at each use; a bitmap says which descriptors are open. Each file that is opened gets a number of
its own here.
-/

namespace PineVoice.VfsFile

open Transition

/-- `VFS_FD_OFFSET`. -/
def vfsFdOffset : ℤ := 48

/-- `VFS_MAX_FILE_NUM`. -/
def vfsMaxFileNum : ℕ := 100

/-- `VFS_ERR_NOENT`. -/
def vfsErrNoent : ℤ := -10002

/-- `VFS_ERR_ENFILE`. -/
def vfsErrEnfile : ℤ := -10005

/-- `VFS_ERR_GENERAL`. -/
def vfsErrGeneral : ℤ := -10009

/-- The `node` of a file: `NULL`, the `-1` of a duplicate, or a node. -/
inductive FileNode where
  | null
  | redirect
  | inode (k : ℕ)
deriving DecidableEq

/-- `vfs_file_t`. -/
structure File where
  /-- `node`. -/
  node : FileNode
  /-- `redirect_fd`. -/
  redirectFd : ℤ
  /-- The number of the file. -/
  opening : ℕ
deriving DecidableEq

/-- The table of files. -/
structure Files where
  /-- `g_files`. -/
  file : ℕ → File
  /-- `g_opened_fd_bitmap`. -/
  opened : ℕ → Bool
  /-- The files opened so far. -/
  openings : ℕ
  /-- The files for which the driver's close was called. -/
  closings : List ℕ

/-- No file was opened yet. -/
def Files.init : Files := ⟨fun _ => ⟨.null, 0, 0⟩, fun _ => false, 0, []⟩

/-- The slot of a descriptor in the range. -/
def slotOf (fd : ℤ) : Option ℕ :=
  if 0 ≤ fd-vfsFdOffset ∧ fd-vfsFdOffset < vfsMaxFileNum then some (fd-vfsFdOffset).toNat else none

/-- `vfs_fd_get`. -/
def vfsFdGet (i : ℕ) : ℤ := i+vfsFdOffset

/-- `vfs_file_get2`: the slot. -/
def vfsFileGet2 (s : Files) (fd : ℤ) : Option ℕ :=
  (slotOf fd).bind fun i => if s.opened i then some i else none

/-- The loop over the redirections, with a bound on its iterations. -/
def redirectLoop (s : Files) : ℕ → ℕ → Option (Option ℕ)
  | 0, _ => none
  | fuel+1, i =>
    if 0 ≤ (s.file i).redirectFd-vfsFdOffset then
      match vfsFileGet2 s (s.file i).redirectFd with
      | none => some none
      | some j => redirectLoop s fuel j
    else some (if (s.file i).node = .null then none else some i)

/-- `vfs_file_get`: the slot; nothing if the bound is reached. -/
def vfsFileGet (s : Files) (fuel : ℕ) (fd : ℤ) : Option (Option ℕ) :=
  match vfsFileGet2 s fd with
  | none => some none
  | some i => redirectLoop s fuel i

/-- The loop of `vfs_file_new`, with the number of slots from `idx` on. -/
def freeSlot (s : Files) : ℕ → ℕ → Option ℕ
  | 0, _ => none
  | k+1, idx => if (s.file idx).node = .null then some idx else freeSlot s k (idx+1)

/-- A slot is set. -/
def Files.setFile (s : Files) (i : ℕ) (f : File) : Files :=
  { s with file := Function.update s.file i f }

/-- A bit of the bitmap is set: `vfs_fd_mark_open` and `vfs_fd_mark_close`. -/
def Files.mark (s : Files) (i : ℕ) (b : Bool) : Files :=
  { s with opened := Function.update s.opened i b }

/-- `vfs_file_del`. -/
def vfsFileDel (s : Files) (i : ℕ) : Files := s.setFile i ⟨.null, -1, 0⟩

/-- `vfs_open`, given the node that the path leads to and the result of the driver's open. -/
def vfsOpen (s : Files) (node : Option ℕ) (ret : ℤ) : Files × ℤ :=
  match node with
  | none => (s, vfsErrNoent)
  | some k =>
    match freeSlot s vfsMaxFileNum 0 with
    | none => (s, vfsErrEnfile)
    | some i =>
      let s := { s.setFile i ⟨.inode k, -1, s.openings⟩ with openings := s.openings+1 }
      if ret ≠ 0 then (vfsFileDel s i, ret) else (s.mark i true, vfsFdGet i)

/-- A descriptor of the standard streams. -/
def isStdioFd (fd : ℤ) : Prop := fd = 0 ∨ fd = 1 ∨ fd = 2

instance (fd : ℤ) : Decidable (isStdioFd fd) := inferInstanceAs (Decidable (_ ∨ _))

/-- `vfs_close`, given the result of the driver's close. The redirections of the standard streams
are kept elsewhere. -/
def vfsClose (s : Files) (fd ret : ℤ) : Files × ℤ :=
  if isStdioFd fd then (s, 0)
  else
    match vfsFileGet2 s fd with
    | none => (s, vfsErrNoent)
    | some i =>
      if 0 ≤ (s.file i).redirectFd then (vfsFileDel (s.mark i false) i, 0)
      else if (s.file i).node = .null then (s, vfsErrNoent)
      else
        (vfsFileDel ({ s with closings := s.closings ++ [(s.file i).opening] }.mark i false) i, ret)

/-- `vfs_dup`. -/
def vfsDup (s : Files) (oldfd : ℤ) : Files × ℤ :=
  match vfsFileGet2 s oldfd with
  | none => (s, vfsErrGeneral)
  | some _ =>
    match freeSlot s vfsMaxFileNum 0 with
    | none => (s, vfsErrGeneral)
    | some i => ((s.setFile i ⟨.redirect, oldfd, 0⟩).mark i true, vfsFdGet i)

/-- `vfs_close_without_glock`. -/
def vfsCloseWithoutGlock (s : Files) (fuel : ℕ) (fd ret : ℤ) : Option (Files × ℤ) :=
  (vfsFileGet s fuel fd).map fun f =>
    match f with
    | none => (s, vfsErrNoent)
    | some i =>
      let s := { s with closings := s.closings ++ [(s.file i).opening] }
      match slotOf fd with
      | none => (vfsFileDel s i, ret)
      | some j => (vfsFileDel (s.mark j false) i, ret)

/-- The end of `set_normal_redirect_fd`, once nothing is open under the new descriptor. -/
def redirectTo (s : Files) (oldfd newfd : ℤ) : Files × ℤ :=
  match vfsFileGet2 s newfd with
  | none => (s, -1)
  | some i => ((s.setFile i ⟨.redirect, oldfd, (s.file i).opening⟩).mark i true, newfd)

/-- `set_normal_redirect_fd` for a new descriptor in the range. -/
def setNormalRedirectFd (s : Files) (fuel : ℕ) (oldfd newfd ret : ℤ) : Option (Files × ℤ) :=
  match vfsFileGet2 s oldfd with
  | none => some (s, -1)
  | some _ =>
    match vfsFileGet2 s newfd with
    | none => some (redirectTo s oldfd newfd)
    | some _ =>
      (vfsCloseWithoutGlock s fuel newfd ret).map fun r =>
        if r.2 ≠ 0 then (r.1, -1) else redirectTo r.1 oldfd newfd

/-- `vfs_dup2` for a new descriptor that is not one of the standard streams. -/
def vfsDup2 (s : Files) (fuel : ℕ) (oldfd newfd ret : ℤ) : Option (Files × ℤ) :=
  (setNormalRedirectFd s fuel oldfd newfd ret).map fun r =>
    (r.1, if 0 ≤ r.2 then newfd else vfsErrGeneral)

/-- The calls, with the answers of lookup and driver. -/
inductive Call where
  | openFile (node : Option ℕ) (ret : ℤ)
  | dup (oldfd : ℤ)
  | close (fd ret : ℤ)
deriving DecidableEq

/-- The table after a call. -/
def Files.step (s : Files) : Call → Option Files
  | .openFile node ret => some (vfsOpen s node ret).1
  | .dup oldfd => some (vfsDup s oldfd).1
  | .close fd ret => some (vfsClose s fd ret).1

/-- Operations on a descriptor act on a file. -/
def Files.ActsOn (s : Files) (fd : ℤ) (opening : ℕ) : Prop :=
  ∃ fuel i, vfsFileGet s fuel fd = some (some i) ∧ (s.file i).opening = opening

end PineVoice.VfsFile
