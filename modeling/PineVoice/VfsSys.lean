import PineVoice.LockTrace
import PineVoice.VfsDup
import PineVoice.VfsInode

/-!
# The calls of the virtual file system

The tables of nodes and of files, with the reference counts that connect them. A node that is
unregistered while files are open on it is only marked; a freed slot keeps its status and the
operations of its last node. A call is split at its locks, since other tasks may come in between,
and leaves a trace of the locks and of the operations it called. Lock operations and allocations
succeed, and a driver has all its operations.
-/

namespace PineVoice.VfsSys

open Function LockTrace Vfs VfsFile

/-- `g_vfs_lock_ptr`, `g_stdio_lock_ptr` and the lock of a node. -/
inductive Lock where
  | vfs
  | stdio
  | node (k : ℕ)
deriving DecidableEq

/-- The operations of a driver or a file system. -/
inductive Op where
  | opens
  | closes
  | reads
  | writes
  | ioctls
deriving DecidableEq

/-- A call of an operation. -/
structure OpCall where
  /-- The operation. -/
  op : Op
  /-- The slot of the node. -/
  node : ℕ
  /-- The registration whose operations they are. -/
  reg : ℕ
  /-- The slot of the file. -/
  file : ℕ
deriving DecidableEq

/-- What a call did. -/
abbrev Trace := List (Event Lock OpCall)

/-- `vfs_inode_t`. -/
structure Slot where
  /-- `i_name` and `type` of a slot in use. -/
  used : Option (Path × NodeType)
  /-- `refs`, a byte. -/
  refs : ℕ
  /-- `status` is `VFS_INODE_VALID`, not `VFS_INODE_INVALID`. -/
  valid : Bool
  /-- The registration that set `ops`. -/
  reg : ℕ
deriving DecidableEq

/-- The state. -/
structure Sys where
  /-- `g_vfs_nodes`. -/
  slot : ℕ → Slot
  /-- `g_rootfs_node`, by its slot. -/
  rootfs : Option ℕ
  /-- `g_files` and `g_opened_fd_bitmap`. -/
  files : Files
  /-- `stdio_redirect_fd`, by the descriptor of the stream. -/
  stdio : ℤ → ℤ
  /-- The registrations so far. -/
  regs : ℕ
  /-- The registrations whose node was unregistered. -/
  removed : List ℕ
  /-- The registration on which a file was opened. -/
  fileReg : ℕ → ℕ

/-- Nothing is registered yet. -/
def Sys.init : Sys :=
  { slot := fun _ => ⟨none, 0, true, 0⟩
    rootfs := none
    files := Files.init
    stdio := fun _ => -1
    regs := 0
    removed := []
    fileReg := fun _ => 0 }

/-- The node in a slot. -/
def Slot.inode (x : Slot) : Option Inode := x.used.map fun u => ⟨u.1, u.2, x.refs, x.valid⟩

/-- The nodes as the lookup sees them. -/
def Sys.nodes (s : Sys) : Nodes := ⟨fun k => (s.slot k).inode, s.rootfs⟩

/-- `VFS_ERR_NOMEM`. -/
def vfsErrNomem : ℤ := -10000

/-- `VFS_ERR_INVAL`. -/
def vfsErrInval : ℤ := -10001

/-- `VFS_ERR_NAMETOOLONG`. -/
def vfsErrNametoolong : ℤ := -10003

/-- `VFS_ERR_NOSYS`. -/
def vfsErrNosys : ℤ := -10004

/-- `VFS_ERR_NODEV`. -/
def vfsErrNodev : ℤ := -10006

/-- `VFS_PATH_MAX`. -/
def vfsPathMax : ℕ := 256

/-- The end of a call. -/
structure Outcome where
  /-- The state. -/
  sys : Sys
  /-- The trace. -/
  trace : Trace
  /-- The result. -/
  ret : ℤ

/-- A slot of a node is set. -/
def Sys.setSlot (s : Sys) (k : ℕ) (x : Slot) : Sys := { s with slot := update s.slot k x }

/-- An operation of a node is called. -/
def Sys.opCall (s : Sys) (op : Op) (k i : ℕ) : OpCall := ⟨op, k, (s.slot k).reg, i⟩

section Nodes

/-- `vfs_inode_ref`. -/
def vfsInodeRef (s : Sys) (k : ℕ) : Sys × Trace :=
  (s.setSlot k { s.slot k with refs := ((s.slot k).refs+1) % 256 }, locked (.node k) [])

/-- `vfs_inode_del` of a node without references. -/
def inodeFree (s : Sys) (k : ℕ) : Sys × Trace :=
  (s.setSlot k { s.slot k with used := none }, [.lock (.node k), .destroy (.node k)])

/-- `vfs_inode_unref`. -/
def vfsInodeUnref (s : Sys) (k : ℕ) : Sys × Trace :=
  let t := s.setSlot k { s.slot k with refs := (s.slot k).refs-1 }
  if (s.slot k).refs-1 = 0 ∧ (s.slot k).valid = false then
    ((inodeFree t k).1, locked (.node k) [] ++ (inodeFree t k).2)
  else (t, locked (.node k) [])

/-- The loop of `close_all_files_on_node`, with the number of turns from `idx` on. The index is
used as a descriptor. -/
def closeAllLoop (s : Sys) (fuel k : ℕ) : ℕ → ℕ → Option (List OpCall)
  | 0, _ => some []
  | n+1, idx =>
    (vfsFileGet s.files fuel idx).bind fun f =>
      (closeAllLoop s fuel k n (idx+1)).map fun rest =>
        match f with
        | none => rest
        | some i =>
          if (s.files.file i).node = .inode k then s.opCall .closes k i :: rest else rest

/-- `close_all_files_on_node`. -/
def closeAllFilesOnNode (s : Sys) (fuel k : ℕ) : Option (List OpCall) :=
  closeAllLoop s fuel k vfsMaxFileNum 0

/-- `vfs_inode_del`. -/
def vfsInodeDel (s : Sys) (fuel k : ℕ) : Option (Sys × Trace) :=
  if 0 < (s.slot k).refs then
    (closeAllFilesOnNode s fuel k).map fun closes =>
      (s.setSlot k { s.slot k with valid := false }, locked (.node k) (closes.map .other))
  else some (inodeFree s k)

/-- The registration that ends when a slot is released. -/
def Sys.removedAt (s : Sys) (k : ℕ) : List ℕ :=
  if (s.slot k).used.isSome then [(s.slot k).reg] else []

/-- The common part of the unregistrations, with `vfs_inode_release`. -/
def vfsUnregister (s : Sys) (fuel : ℕ) (path : Path) : Option Outcome :=
  match vfsInodeOpen s.nodes path with
  | none => some ⟨s, locked .vfs [], vfsErrNodev⟩
  | some k =>
    (vfsInodeDel s fuel k).map fun r =>
      ⟨{ r.1 with removed := s.removedAt k ++ s.removed }, locked .vfs r.2, 0⟩

/-- The common part of the registrations, with `vfs_inode_reserve`. The references of the slot
are left as they are. -/
def vfsRegister (type : NodeType) (s : Sys) (path : Path) : Outcome :=
  match vfsInodeOpen s.nodes path with
  | some _ => ⟨s, locked .vfs [], vfsErrInval⟩
  | none =>
    if path.head? ≠ some '/' then ⟨s, locked .vfs [], vfsErrInval⟩
    else
      match vfsInodeAlloc s.nodes vfsDeviceNodes 0 with
      | none => ⟨s, locked .vfs [], vfsErrNomem⟩
      | some k =>
        ⟨{ s.setSlot k ⟨some (path, type), (s.slot k).refs, true, s.regs⟩ with
            rootfs := if path = ['/'] then some k else s.rootfs
            regs := s.regs+1 },
          locked .vfs [], 0⟩

end Nodes

section Files

/-- A slot of the file table gets a file on a node. -/
def Sys.enter (s : Sys) (k i : ℕ) : Sys :=
  { s with
    files := { s.files.setFile i ⟨.inode k, -1, s.files.openings⟩ with
      openings := s.files.openings+1 }
    fileReg := update s.fileReg i (s.slot k).reg }

/-- `vfs_file_new` for a node. -/
def vfsFileNew (s : Sys) (k : ℕ) : Option (ℕ × Sys × Trace) :=
  (freeSlot s.files vfsMaxFileNum 0).map fun i => (i, vfsInodeRef (s.enter k i) k)

/-- The references that `vfs_file_del` gives back. -/
def fileUnref (s : Sys) (i : ℕ) : Sys × Trace :=
  match (s.files.file i).node with
  | .inode k => vfsInodeUnref s k
  | _ => (s, [])

/-- `vfs_file_del`. -/
def vfsFileDel (s : Sys) (i : ℕ) : Sys × Trace :=
  ({ (fileUnref s i).1 with files := VfsFile.vfsFileDel s.files i }, (fileUnref s i).2)

/-- `vfs_fd_mark_open` and `vfs_fd_mark_close` for a descriptor in the range. -/
def Sys.mark (s : Sys) (fd : ℤ) (b : Bool) : Sys :=
  match slotOf fd with
  | none => s
  | some i => { s with files := s.files.mark i b }

/-- How the first section of `vfs_open` ends. -/
inductive OpenBegun where
  | failed (err : ℤ)
  | begun (k i : ℕ)
deriving DecidableEq

/-- The first section of `vfs_open`. -/
def openBegin (s : Sys) (path : Path) : Sys × Trace × OpenBegun :=
  match vfsInodeOpen s.nodes path with
  | none => (s, locked .vfs [], .failed vfsErrNoent)
  | some k =>
    match vfsFileNew s k with
    | none => (s, locked .vfs [], .failed vfsErrEnfile)
    | some (i, t, trace) => (t, locked .vfs trace, .begun k i)

/-- The section of `vfs_open` under the lock of the node, given what the driver returns. -/
def openDriver (s : Sys) (k i : ℕ) (ret : ℤ) : Trace × ℤ :=
  if (s.slot k).valid then (locked (.node k) [.other (s.opCall .opens k i)], ret)
  else (locked (.node k) [], vfsErrNoent)

/-- The last section of `vfs_open`. -/
def openEnd (s : Sys) (i : ℕ) (ret : ℤ) : Outcome :=
  if ret ≠ 0 then ⟨(vfsFileDel s i).1, locked .vfs (vfsFileDel s i).2, ret⟩
  else ⟨s.mark (vfsFdGet i) true, locked .vfs [], vfsFdGet i⟩

/-- `vfs_open`. -/
def vfsOpen (s : Sys) (path : Path) (ret : ℤ) : Outcome :=
  if vfsPathMax < path.length then ⟨s, [], vfsErrNametoolong⟩
  else
    match openBegin s path with
    | (t, trace, .failed err) => ⟨t, trace, err⟩
    | (t, trace, .begun k i) =>
      let driver := openDriver t k i ret
      let last := openEnd t i driver.2
      ⟨last.sys, trace ++ driver.1 ++ last.trace, last.ret⟩

/-- How the first section of `vfs_close` ends. -/
inductive CloseBegun where
  | failed
  | redirected
  | begun (i : ℕ)
deriving DecidableEq

/-- What the first section of `vfs_close` finds. -/
def closeBegin (s : Sys) (fd : ℤ) : CloseBegun :=
  match vfsFileGet2 s.files fd with
  | none => .failed
  | some i =>
    if 0 ≤ (s.files.file i).redirectFd then .redirected
    else if (s.files.file i).node = .null then .failed
    else .begun i

/-- `clear_normal_redirect_fd`. The node is set to `NULL` before `vfs_file_del` looks at it. -/
def clearNormalRedirectFd (s : Sys) (fd : ℤ) : Outcome :=
  match vfsFileGet2 s.files fd with
  | none => ⟨s, locked .vfs [], -1⟩
  | some i => ⟨{ s with files := VfsFile.vfsFileDel (s.files.mark i false) i }, locked .vfs [], 0⟩

/-- The section of `vfs_close` under the lock of the node, given what the driver returns. -/
def closeDriver (s : Sys) (k i : ℕ) (ret : ℤ) : Trace × ℤ :=
  if (s.slot k).valid then (locked (.node k) [.other (s.opCall .closes k i)], ret)
  else (locked (.node k) [], 0)

/-- The descriptor is marked and the file deleted. -/
def closeFile (s : Sys) (fd : ℤ) (i : ℕ) : Sys × Trace := vfsFileDel (s.mark fd false) i

/-- `vfs_close`. A file whose node is a `-1` without a redirection has no defined outcome. -/
def vfsClose (s : Sys) (fd ret : ℤ) : Option Outcome :=
  if isStdioFd fd then
    some ⟨{ s with stdio := update s.stdio fd (-1) }, locked .stdio [], 0⟩
  else
    match closeBegin s fd with
    | .failed => some ⟨s, locked .vfs [], vfsErrNoent⟩
    | .redirected =>
      let r := clearNormalRedirectFd s fd
      some ⟨r.sys, locked .vfs [] ++ r.trace, if r.ret = 0 then 0 else vfsErrGeneral⟩
    | .begun i =>
      match (s.files.file i).node with
      | .inode k =>
        let driver := closeDriver s k i ret
        let last := closeFile s fd i
        some ⟨last.1, locked .vfs [] ++ driver.1 ++ locked .vfs last.2, driver.2⟩
      | _ => none

/-- The common part of `vfs_read`, `vfs_write` and `vfs_ioctl`: a node that is not valid is
unlocked before the jump to the label behind which it is unlocked again. -/
def access (op : Op) (other : ℤ) (s : Sys) (fuel : ℕ) (fd ret : ℤ) : Option (Trace × ℤ) :=
  (vfsFileGet s.files fuel fd).bind fun f =>
    match f with
    | none => some ([], vfsErrNoent)
    | some i =>
      match (s.files.file i).node with
      | .inode k =>
        some (if (s.slot k).valid then (locked (.node k) [.other (s.opCall op k i)], ret)
          else (locked (.node k) [] ++ [.unlock (.node k)], other))
      | _ => none

/-- `vfs_read`. -/
def vfsRead (s : Sys) (fuel : ℕ) (fd ret : ℤ) : Option (Trace × ℤ) :=
  access .reads (-1) s fuel fd ret

/-- `vfs_write`: the standard streams may be redirected. -/
def vfsWrite (s : Sys) (fuel : ℕ) (fd nbytes ret : ℤ) : Option (Trace × ℤ) :=
  if fd = 1 ∨ fd = 2 then
    if 0 ≤ s.stdio fd then
      (access .writes (-1) s fuel (s.stdio fd) ret).map fun r => (locked .stdio [] ++ r.1, r.2)
    else some (locked .stdio [], nbytes)
  else access .writes (-1) s fuel fd ret

/-- `vfs_ioctl`. -/
def vfsIoctl (s : Sys) (fuel : ℕ) (fd ret : ℤ) : Option (Trace × ℤ) :=
  if fd < 0 then some ([], vfsErrInval) else access .ioctls vfsErrNosys s fuel fd ret

/-- `vfs_dup`. -/
def vfsDup (s : Sys) (oldfd : ℤ) : Outcome :=
  ⟨{ s with files := (VfsFile.vfsDup s.files oldfd).1 }, locked .vfs [],
    (VfsFile.vfsDup s.files oldfd).2⟩

/-- `set_stdio_redirect_fd`: the wrong lock is given back if the descriptor is not open. -/
def setStdioRedirectFd (s : Sys) (sfd rfd : ℤ) : Outcome :=
  match vfsFileGet2 s.files rfd with
  | none => ⟨s, [.lock .stdio, .unlock .vfs], -1⟩
  | some _ => ⟨{ s with stdio := update s.stdio sfd rfd }, locked .stdio [], 0⟩

/-- `vfs_close_without_glock`; its assertion fails for a `-1`. -/
def vfsCloseWithoutGlock (s : Sys) (fuel : ℕ) (fd ret : ℤ) : Option Outcome :=
  (vfsFileGet s.files fuel fd).bind fun f =>
    match f with
    | none => some ⟨s, [], vfsErrNoent⟩
    | some i =>
      match (s.files.file i).node with
      | .inode k =>
        some ⟨(closeFile s fd i).1, (closeDriver s k i ret).1 ++ (closeFile s fd i).2,
          (closeDriver s k i ret).2⟩
      | _ => none

/-- The end of `set_normal_redirect_fd`, once nothing is open under the new descriptor. -/
def redirectTo (s : Sys) (oldfd newfd : ℤ) : Sys × ℤ :=
  ({ s with files := (VfsFile.redirectTo s.files oldfd newfd).1 },
    (VfsFile.redirectTo s.files oldfd newfd).2)

/-- `set_normal_redirect_fd`. A new descriptor that is out of range is not found, whatever
`vfs_fd_is_open` says of it. -/
def setNormalRedirectFd (s : Sys) (fuel : ℕ) (oldfd newfd ret : ℤ) : Option Outcome :=
  match vfsFileGet2 s.files oldfd with
  | none => some ⟨s, locked .vfs [], -1⟩
  | some _ =>
    match vfsFileGet2 s.files newfd with
    | none =>
      some ⟨(redirectTo s oldfd newfd).1, locked .vfs [], (redirectTo s oldfd newfd).2⟩
    | some _ =>
      (vfsCloseWithoutGlock s fuel newfd ret).map fun r =>
        if r.ret ≠ 0 then ⟨r.sys, locked .vfs r.trace, -1⟩
        else
          ⟨(redirectTo r.sys oldfd newfd).1, locked .vfs r.trace,
            (redirectTo r.sys oldfd newfd).2⟩

/-- `vfs_dup2`. -/
def vfsDup2 (s : Sys) (fuel : ℕ) (oldfd newfd ret : ℤ) : Option Outcome :=
  if isStdioFd newfd then
    let r := setStdioRedirectFd s newfd oldfd
    some { r with ret := if r.ret = 0 then 0 else vfsErrGeneral }
  else
    (setNormalRedirectFd s fuel oldfd newfd ret).map fun r =>
      { r with ret := if 0 ≤ r.ret then newfd else vfsErrGeneral }

end Files

/-- The calls, with what the driver returns. -/
inductive Call where
  | registerDriver (path : Path)
  | registerFs (path : Path)
  | unregisterDriver (path : Path)
  | unregisterFs (path : Path)
  | openFile (path : Path) (ret : ℤ)
  | close (fd ret : ℤ)
  | read (fd ret : ℤ)
  | write (fd nbytes ret : ℤ)
  | ioctl (fd ret : ℤ)
  | dup (oldfd : ℤ)
  | dup2 (oldfd newfd ret : ℤ)
deriving DecidableEq

/-- A call, with a bound on the redirections that are followed for a descriptor; nothing if the
bound is reached or the outcome is not defined. -/
def Sys.call (s : Sys) (fuel : ℕ) : Call → Option Outcome
  | .registerDriver path => some (vfsRegister .char s path)
  | .registerFs path => some (vfsRegister .fs s path)
  | .unregisterDriver path => vfsUnregister s fuel path
  | .unregisterFs path => vfsUnregister s fuel path
  | .openFile path ret => some (vfsOpen s path ret)
  | .close fd ret => vfsClose s fd ret
  | .read fd ret => (vfsRead s fuel fd ret).map fun r => ⟨s, r.1, r.2⟩
  | .write fd nbytes ret => (vfsWrite s fuel fd nbytes ret).map fun r => ⟨s, r.1, r.2⟩
  | .ioctl fd ret => (vfsIoctl s fuel fd ret).map fun r => ⟨s, r.1, r.2⟩
  | .dup oldfd => some (vfsDup s oldfd)
  | .dup2 oldfd newfd ret => vfsDup2 s fuel oldfd newfd ret

/-- The state after a call. -/
def Sys.step (fuel : ℕ) (s : Sys) (c : Call) : Option Sys := (s.call fuel c).map Outcome.sys

end PineVoice.VfsSys
