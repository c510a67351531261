import Mftt.BootMemory
import Mftt.Dentries
import Mftt.Descriptors
import Mftt.UserCopy

/-!
# System calls on the current directory

`sys_chdir` and the text that `sys_getcwd` gives, with the blocks they allocate and free and every
place where they do not return. Blocks of dentries and inodes are not listed: they are linked into
the tree when they are made. What lies on the disk and in its cache are parameters.
-/

namespace Mftt

open OpenFiles (Register)

/-- The size of the buffer of `vfs_get_dentry_fullpath`. -/
abbrev FULLPATH_SIZE : Nat := 128

/-- What `loop_fat_dirent` needs of the heap for a directory: its accesses to the cache, the
sizes of the blocks for its long names, and that of the block for a long name that the directory
begins and does not end. -/
structure DirectoryHeap where
  accesses : List CacheAccess := []
  names : List Nat := []
  dangling : Option Nat := none

/-- A directory on a volume: the volume and the first cluster. -/
abbrev Place := Option Nat × Nat

/-- The parts of the system that the calls use and do not change. -/
structure Environment where
  /-- The allocator of the kernel heap. -/
  supply : Supply
  memory : Memory
  listing : Listing
  directory : Place → DirectoryHeap
  /-- What is left in the array that holds a name. -/
  stale : List Char

/-- The state that the calls of one process use. -/
structure Kernel where
  blocks : Blocks
  vfs : Vfs
  cwd : Option Nat

namespace Kernel

variable (env : Environment)

section Heap

/-- A routine on the blocks that gives a value. -/
def onBlocks (k : Kernel) {α : Type} (routine : Except Fault (α × Blocks)) :
    Except Fault (α × Kernel) :=
  routine >>= fun (value, blocks) => .ok (value, { k with blocks := blocks })

/-- A routine on the blocks. -/
def withBlocks (k : Kernel) (routine : Except Fault Blocks) : Except Fault Kernel :=
  routine >>= fun blocks => .ok { k with blocks := blocks }

def kfree (k : Kernel) (p : Nat) : Except Fault Kernel :=
  k.withBlocks (k.blocks.kfree p)

/-- A string that was copied from the process: its block and its text. -/
abbrev Copy := Nat × List Char

def ustrcpyOut (k : Kernel) (ustr : Register) : Except Fault (Option Copy × Kernel) :=
  k.onBlocks (env.memory.ustrcpyOut env.supply k.blocks ustr.toNat)

/-- `kfree` of what `ustrcpy_out` gave. -/
def kfreeCopy (k : Kernel) (copy : Option Copy) : Except Fault Kernel :=
  k.kfree ((copy.map Prod.fst).getD 0)

end Heap

section Tree

/-- Where the directory of a dentry lies. -/
def placeOf (vfs : Vfs) (d : Nat) : Option Place :=
  (vfs.dirInode d).map fun dir => ((vfs.inode dir).sb, (vfs.inode dir).startClus)

/-- Each of a number of blocks is filled, used and freed. -/
def temporaries : List Nat → Blocks → Except Fault Blocks
  | [], b => .ok b
  | size :: rest, b => b.temporary env.supply size >>= temporaries rest

/-- `loop_fat_dirent` over a directory. -/
def readDirectory (place : Place) (b : Blocks) : Except Fault Blocks :=
  b.accesses env.supply (env.directory place).accesses >>= fun b =>
    temporaries env (env.directory place).names b >>= fun b =>
      match (env.directory place).dangling with
      | none => .ok b
      | some size => b.kmallocAsserted env.supply size "OOM" >>= fun (_, b) => .ok b

/-- A number of directories. -/
def readDirectories : List Place → Blocks → Except Fault Blocks
  | [], b => .ok b
  | place :: rest, b => readDirectory env place b >>= readDirectories rest

/-- The directories that were read between two states of the tree, the first one first. -/
def readBetween (before after : Vfs) : List Place :=
  (after.loads.take (after.loads.length - before.loads.length)).reverse.filterMap (placeOf after)

/-- A routine on the tree that may read directories. -/
def onTree (k : Kernel) {α : Type} (routine : Except Fault (α × Vfs)) :
    Except Fault (α × Kernel) :=
  routine >>= fun (value, vfs) =>
    readDirectories env (readBetween k.vfs vfs) k.blocks >>= fun blocks =>
      .ok (value, { k with blocks := blocks, vfs := vfs })

def vfsGetDentry (k : Kernel) (path : List Char) (cwd : Option Nat) :
    Except Fault (Option Nat × Kernel) :=
  k.onTree env (k.vfs.vfsGetDentry env.listing path cwd env.stale)

/-- `vfs_get_dentry` of a path that may be NULL. -/
def lookup (k : Kernel) (path : Option Copy) : Except Fault (Option Nat × Kernel) :=
  match path with
  | none => .error .nullPointer
  | some copy => k.vfsGetDentry env copy.2 k.cwd

end Tree

section Directories

/-- `sys_chdir`. -/
def sysChdir (k : Kernel) (a0 : Register) : Except Fault (Int × Kernel) :=
  k.ustrcpyOut env a0 >>= fun (path, k) =>
    k.lookup env path >>= fun (newCwd, k) =>
      k.kfreeCopy path >>= fun k =>
        match newCwd with
        | none => .ok (-1, k)
        | some d => .ok (0, { k with cwd := some d })

/-- What `vfs_get_dentry_fullpath` copies for a name: at least one character. -/
def nameCopied (name : List Char) : List Char := if name = [] then ['\x00'] else name

/-- The characters that `vfs_get_dentry_fullpath` puts together. -/
def fullPath (s : Vfs) : Nat → Nat → Except Fault (List Char)
  | 0, _ => .error .unfinished
  | fuel + 1, d =>
    match (s.dentry d).parent with
    | none => .ok (nameCopied (s.dentry d).name)
    | some parent =>
      fullPath s fuel parent >>= fun above =>
        .ok (above ++
          (if ((s.dentry parent).type = .dir ∨ (s.dentry parent).type = .mounted) ∧
              (s.dentry parent).name.head? ≠ some '/' then ['/'] else []) ++
          nameCopied (s.dentry d).name)

/-- The string that `sys_getcwd` finds in the buffer of `vfs_get_dentry_fullpath`. A longer path
is written in front of the buffer. -/
def cwdText (k : Kernel) : Except Fault (List Char) :=
  match k.cwd with
  | none => .error .nullPointer
  | some d =>
    fullPath k.vfs k.vfs.dentries d >>= fun path =>
      if path.length < FULLPATH_SIZE then .ok (path.takeWhile (· ≠ '\x00'))
      else .error .outOfBounds

end Directories

end Kernel

end Mftt
