import Mftt.Fault
import Mathlib.Data.Finset.Basic

/-!
# Open files

The file objects of the kernel, the descriptor tables of the processes and the counters that
connect them: `vfs_open`, `vfs_fdup`, `vfs_close` and the routines that call them. A file
object is known by its address; 0 is NULL. An object that was freed keeps its last contents.

Where a path is looked up, memory is allocated or a device is opened, the outcome is an
argument. The counters are C `int`s; a file has at most one reference for each slot of each
process, far below their range, and they are integers here.
-/

namespace Mftt

abbrev MAX_FILE_OPEN : Nat := 128

/-- The first descriptor that `sys_open`, `sys_dup2` and `sys_pipe2` give out. -/
abbrev FIRST_FD : Nat := 3

/-- The fields of `file_t` that the counters need. -/
structure FileObject where
  fInode : Option Nat := none
  fCounts : Int := 0
  deriving DecidableEq, Repr

/-- A descriptor of a process. -/
abbrev Slot := Nat × Nat

/-- File objects by address, which of them are allocated, the descriptor tables, and `i_counts`
by inode. -/
structure OpenFiles where
  file : Nat → FileObject
  allocated : Finset Nat
  files : Slot → Nat
  iCounts : Nat → Int

namespace OpenFiles

/-- `kmalloc(sizeof(file_t))` that returned `address`. -/
def kmalloc (s : OpenFiles) (address : Nat) (object : FileObject) : OpenFiles :=
  { s with
    file := Function.update s.file address object
    allocated := insert address s.allocated }

/-- `kfree`. -/
def kfree (s : OpenFiles) (address : Nat) : Except Fault OpenFiles :=
  assert (address ∈ s.allocated) "Memory block not inuse." >>= fun _ =>
    .ok { s with allocated := s.allocated.erase address }

/-- Write `f_counts`. -/
def setCounts (s : OpenFiles) (address : Nat) (counts : Int) : OpenFiles :=
  { s with file := Function.update s.file address { s.file address with fCounts := counts } }

/-- `proc->files[fd] = address`. -/
def setSlot (s : OpenFiles) (slot : Slot) (address : Nat) : OpenFiles :=
  { s with files := Function.update s.files slot address }

/-- A directory entry that was looked up: its inode, and whether the `open` of its device
succeeds. -/
structure Found where
  inode : Option Nat
  opens : Bool

/-- `vfs_open` where `kmalloc` returned `address`. -/
def vfsOpen (s : OpenFiles) (found : Found) (address : Nat) : Except Fault OpenFiles :=
  notNull address >>= fun _ =>
    match found.inode with
    | none => .error .nullPointer
    | some inode =>
      if found.opens then
        let s := s.kmalloc address { fInode := some inode, fCounts := 1 }
        .ok { s with iCounts := Function.update s.iCounts inode (s.iCounts inode + 1) }
      else kpanic "err open."

/-- `vfs_fdup`. -/
def vfsFdup (s : OpenFiles) (address : Nat) : OpenFiles :=
  s.setCounts address ((s.file address).fCounts + 1)

/-- `vfs_close`. -/
def vfsClose (s : OpenFiles) (address : Nat) : Except Fault OpenFiles :=
  let counts := (s.file address).fCounts - 1
  if counts < 0 then kpanic "fild closed execced opens."
  else if counts = 0 then (s.setCounts address counts).kfree address
  else .ok (s.setCounts address counts)

/-- The first free descriptor from `fd` on, of `left` ones. -/
def freeFd (s : OpenFiles) (pid : Nat) : Nat → Nat → Option Nat
  | 0, _ => none
  | left + 1, fd => if s.files (pid, fd) = 0 then some fd else freeFd s pid left (fd + 1)

/-- The loop of `sys_open` and `sys_dup2` over the descriptor table. -/
def firstFree (s : OpenFiles) (pid : Nat) : Option Nat :=
  s.freeFd pid (MAX_FILE_OPEN - FIRST_FD) FIRST_FD

/-- `sys_close`. -/
def sysClose (s : OpenFiles) (pid fd : Nat) : Except Fault (Int × OpenFiles) :=
  if s.files (pid, fd) = 0 then .ok (-1, s)
  else s.vfsClose (s.files (pid, fd)) >>= fun s => .ok (0, s.setSlot (pid, fd) 0)

/-- `ftable[new_fd] = vfs_fdup(ftable[old_fd])`. -/
def dupTo (s : OpenFiles) (pid oldFd newFd : Nat) : OpenFiles :=
  (s.vfsFdup (s.files (pid, oldFd))).setSlot (pid, newFd) (s.files (pid, oldFd))

/-- `sys_dup2`. -/
def sysDup2 (s : OpenFiles) (pid oldFd : Nat) : Except Fault (Int × OpenFiles) :=
  if s.files (pid, oldFd) = 0 then .ok (-1, s)
  else
    match s.firstFree pid with
    | none => .ok (-1, s)
    | some newFd => .ok (newFd, s.dupTo pid oldFd newFd)

/-- `sys_dup3`. -/
def sysDup3 (s : OpenFiles) (pid oldFd newFd : Nat) : Except Fault (Int × OpenFiles) :=
  if s.files (pid, oldFd) = 0 then .ok (-1, s)
  else
    (if s.files (pid, newFd) = 0 then .ok s else s.vfsClose (s.files (pid, newFd))) >>= fun s =>
      .ok (newFd, s.dupTo pid oldFd newFd)

end OpenFiles

end Mftt
