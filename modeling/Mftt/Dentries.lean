import Mftt.Fault
import Mathlib.Logic.Function.Basic

/-!
# The dentry tree

The directory entries that the kernel has in memory, and the routines of `vfs.c` that walk and
change them. A dentry or an inode is known by a number; the numbers below `dentries` and
`inodes` are in use. A name is the list of its characters up to the NUL.

Two tables of inode operations exist: that of the devices, whose entries are all NULL, and that
of FAT32, which has no `lookup`. So a name that is not in memory is looked for by reading its
directory. What `loop_fat_dirent` finds in a directory is the parameter `listing`.

Every `kmalloc` here is written to before it is tested, so a routine that gets no memory does
not return; it is taken to succeed.
-/

namespace Mftt

abbrev D_NAME_LEN : Nat := 32

/-- `enum inode_type`. -/
inductive InodeType where
  | rootfs | dev | file | dir
  deriving DecidableEq, Repr

/-- The tables of inode operations of the repository. -/
inductive InodeOps where
  | device | fatfs
  deriving DecidableEq, Repr

/-- The fields of `inode_t` that the tree needs. `sb` and `startClus` say which directory
of which volume an inode of FAT32 is. -/
structure Inode where
  type : InodeType := .rootfs
  op : Option InodeOps := none
  nlinks : Nat := 0
  sb : Option Nat := none
  startClus : Nat := 0
  deriving DecidableEq, Repr

/-- `d_type`. -/
inductive DentryType where
  | file | dir | notLoaded | mounted
  deriving DecidableEq, Repr

/-- `dentry_t`, with the root inode of its `d_mount`. -/
structure Dentry where
  parent : Option Nat := none
  name : List Char := []
  inode : Option Nat := none
  type : DentryType := .file
  loaded : Bool := false
  mount : Option Nat := none
  subdirs : List Nat := []
  deriving DecidableEq, Repr

/-- What `loop_fat_dirent` hands to the callback of `read_dir` for one entry. -/
structure FatEntry where
  longName : List Char
  isDir : Bool
  clus : Nat
  deriving DecidableEq, Repr

/-- The entries of the directory of a volume that starts at a cluster. -/
abbrev Listing := Option Nat → Nat → Except Fault (List FatEntry)

/-- The dentries and inodes in memory. `volumes` counts the superblocks of mounted volumes and
`loads` records the dentries whose directory was read, the last one first. -/
structure Vfs where
  dentry : Nat → Dentry
  dentries : Nat
  inode : Nat → Inode
  inodes : Nat
  volumes : Nat := 0
  loads : List Nat := []

/-- `root_dentry`. -/
abbrev ROOT : Nat := 0

/-- The name of a FAT32 entry, cut to what `d_name` holds. -/
def FatEntry.dName (entry : FatEntry) : List Char :=
  entry.longName.take (D_NAME_LEN - 1)

namespace Vfs

/-- Change one dentry. -/
def modify (s : Vfs) (d : Nat) (change : Dentry → Dentry) : Vfs :=
  { s with dentry := Function.update s.dentry d (change (s.dentry d)) }

/-- A new inode. -/
def allocInode (s : Vfs) (inode : Inode) : Vfs :=
  { s with inode := Function.update s.inode s.inodes inode, inodes := s.inodes + 1 }

/-- A new dentry, put at the head of the list of its parent. -/
def addDentry (s : Vfs) (parent : Nat) (dentry : Dentry) : Vfs :=
  { s with
    dentry := Function.update
      (Function.update s.dentry s.dentries { dentry with parent := some parent })
      parent { s.dentry parent with subdirs := s.dentries :: (s.dentry parent).subdirs }
    dentries := s.dentries + 1 }

/-- The inode whose operations read the directory of a dentry. -/
def dirInode (s : Vfs) (d : Nat) : Option Nat :=
  (s.dentry d).mount.or (s.dentry d).inode

/-- The first entry of a name on the list of a dentry. -/
def child (s : Vfs) (d : Nat) (name : List Char) : Option Nat :=
  (s.dentry d).subdirs.find? fun c => (s.dentry c).name = name

/-- The callback `looper` of FAT32's `read_dir`, with `vfs_read_dir_callback` inside. -/
def looper (parent dir : Nat) (s : Vfs) (entry : FatEntry) : Vfs :=
  (s.allocInode
    { type := if entry.isDir then .dir else .file
      op := some .fatfs, nlinks := 1, sb := (s.inode dir).sb, startClus := entry.clus }).addDentry
    parent
    { name := entry.dName, inode := some s.inodes, type := if entry.isDir then .dir else .file }

/-- `read_dir` of FAT32 over the inode `dir`, for the dentry `parent`; then `d_loaded` is set. -/
def readDir (listing : Listing) (s : Vfs) (dir parent : Nat) : Except Fault Vfs :=
  assert ((s.inode dir).type = .dir) "Must be dir." >>= fun _ =>
    listing (s.inode dir).sb (s.inode dir).startClus >>= fun entries =>
      let s := entries.foldl (looper parent dir) s
      .ok { s.modify parent fun d => { d with loaded := true } with loads := parent :: s.loads }

/-- Read the directory of a dentry, unless that was done or its inode cannot. -/
def load (listing : Listing) (s : Vfs) (d : Nat) : Except Fault Vfs :=
  match s.dirInode d with
  | none => .ok s
  | some dir =>
    if (s.inode dir).op = some .fatfs ∧ (s.dentry d).loaded = false then readDir listing s dir d
    else .ok s

/-- The search for a name, which reads the directory when the name is not in memory. -/
def search (listing : Listing) (s : Vfs) (par : Nat) (name : List Char) :
    Except Fault (Option Nat × Vfs) :=
  match s.child par name with
  | some dir => .ok (some dir, s)
  | none => load listing s par >>= fun s => .ok (s.child par name, s)

/-- One component before the last. -/
def resolve (listing : Listing) (s : Vfs) (par : Nat) (dname : List Char) :
    Except Fault (Option Nat × Vfs) :=
  if dname = ['.', '.'] then .ok (some ((s.dentry par).parent.getD ROOT), s)
  else if dname = [] ∨ dname = ['.'] then .ok (some par, s)
  else search listing s par dname

/-- What `vfs_get_parent_dentry` leaves behind: its result, and what it wrote to `name`. -/
structure Parent where
  dentry : Option Nat
  name : Option (List Char)
  deriving DecidableEq, Repr

/-- A copy of `text` and a NUL into an array of `D_NAME_LEN` characters. -/
def copyName (text : List Char) : Except Fault Unit :=
  if text.length < D_NAME_LEN then .ok () else .error .outOfBounds

/-- The loop of `vfs_get_parent_dentry`. `since` is what was read after the last slash, and
`meet` says that `dname` still has to be resolved. -/
def walk (listing : Listing) (s : Vfs) (par : Nat) (dname : List Char) (meet : Bool)
    (since : List Char) : List Char → Except Fault (Parent × Vfs)
  | [] => copyName since >>= fun _ => .ok (⟨some par, some since⟩, s)
  | ch :: path =>
    if ch = '/' then copyName since >>= fun _ => walk listing s par since true [] path
    else if meet then
      resolve listing s par dname >>= fun (found, s) =>
        match found with
        | none => .ok (⟨none, none⟩, s)
        | some par => walk listing s par dname false (since ++ [ch]) path
    else walk listing s par dname false (since ++ [ch]) path

/-- Where a path starts. -/
def origin (path : List Char) (cwd : Option Nat) : Nat :=
  if path.head? = some '/' then ROOT else cwd.getD ROOT

/-- A path without its first slash. -/
def relative (path : List Char) : List Char :=
  if path.head? = some '/' then path.tail else path

/-- `vfs_get_parent_dentry`. -/
def vfsGetParentDentry (listing : Listing) (s : Vfs) (path : List Char) (cwd : Option Nat) :
    Except Fault (Parent × Vfs) :=
  if relative path = [] then .ok (⟨none, some ['/']⟩, s)
  else walk listing s (origin path cwd) [] false [] (relative path)

/-- `vfs_get_dentry`. When the parent was not found nothing may have been written to `cname`;
`stale` is what the array holds then. -/
def vfsGetDentry (listing : Listing) (s : Vfs) (path : List Char) (cwd : Option Nat)
    (stale : List Char) : Except Fault (Option Nat × Vfs) :=
  vfsGetParentDentry listing s path cwd >>= fun (found, s) =>
    let cname := found.name.getD stale
    match found.dentry with
    | none => .ok (if cname = ['/'] then some ROOT else none, s)
    | some parent =>
      if cname = ['.', '.'] then .ok ((s.dentry parent).parent, s)
      else if cname = ['.'] then .ok (some parent, s)
      else search listing s parent cname

/-- `inode->i_nlinks++`. -/
def countLink (s : Vfs) (inode : Nat) : Vfs :=
  { s with
    inode := Function.update s.inode inode
      { s.inode inode with nlinks := (s.inode inode).nlinks + 1 } }

/-- `vfs_link_inode`. The `link` of FAT32 does nothing. -/
def vfsLinkInode (s : Vfs) (inode parent : Nat) (name : List Char) : Except Fault Vfs :=
  (match (s.dentry parent).inode, (s.inode inode).op with
    | some _, none => .error .nullPointer
    | some _, some .fatfs => .ok s
    | _, _ => .ok (s.countLink inode)) >>= fun linked =>
    .ok (linked.addDentry parent
      { name := name, inode := some inode
        type := if (s.inode inode).type = .dir then .dir else .file })

/-- `vfs_alloc_inode`; with a superblock it is FAT32's `alloc_inode`. -/
def vfsAllocInode (s : Vfs) (sb : Option Nat) : Vfs :=
  s.allocInode { op := sb.map fun _ => .fatfs, sb := sb }

/-- The names that `vfs_mkdir` refuses. -/
def refused (dname : List Char) : Bool :=
  match dname with
  | ['.'] => true
  | ['.', _, '.'] => true
  | _ => false

/-- `vfs_mkdir` in a directory that was found. FAT32's `mkdir` makes no inode. -/
def makeDir (s : Vfs) (parent : Nat) (dname : List Char) : Except Fault (Option Nat × Vfs) :=
  if (s.child parent dname).isSome then .ok (none, s)
  else
    match (s.dentry parent).inode with
    | none => .error .nullPointer
    | some pinode =>
      if (s.inode pinode).op = some .fatfs then .ok (none, s)
      else
        .ok (some s.dentries, (s.vfsAllocInode (s.inode pinode).sb).addDentry parent
          { name := dname, inode := some s.inodes, type := .dir })

/-- `vfs_mkdir`. -/
def vfsMkdir (listing : Listing) (s : Vfs) (parent : Option Nat) (path stale : List Char) :
    Except Fault (Option Nat × Vfs) :=
  vfsGetParentDentry listing s path parent >>= fun (found, s) =>
    let dname := found.name.getD stale
    if refused dname then .ok (none, s)
    else
      match found.dentry with
      | none => .error .nullPointer
      | some parent => s.makeDir parent dname

/-- The part of a `file_t` that `vfs_read_dir` uses: its dentry, and the entry to go on with,
if `f_fs_data` is set; `some none` is the head of the list. -/
structure DirFile where
  dentry : Nat
  next : Option (Option Nat) := none
  deriving DecidableEq, Repr

/-- The entry after `c` on a list. -/
def after (c : Nat) : List Nat → Option Nat
  | [] => none
  | d :: rest => if d = c then rest.head? else after c rest

/-- `vfs_read_dir`: the entry it gives, and the file afterwards. -/
def vfsReadDir (listing : Listing) (s : Vfs) (file : DirFile) :
    Except Fault (Option Nat × DirFile × Vfs) :=
  load listing s file.dentry >>= fun s =>
    let list := (s.dentry file.dentry).subdirs
    match file.next.getD list.head? with
    | none => .ok (none, file, s)
    | some entry => .ok (some entry, { file with next := some (after entry list) }, s)

/-- The root inode of the next volume. -/
def volumeRoot (s : Vfs) (clus : Nat) : Inode :=
  { type := .dir, op := some .fatfs, sb := some s.volumes, startClus := clus }

/-- Put the root inode of a volume over a dentry. -/
def mountOn (s : Vfs) (mp root : Nat) : Vfs :=
  s.modify mp fun d => { d with type := .mounted, mount := some root }

/-- `vfs_mount` of a volume; `rootClus` is what `fat_read_superblock` finds on the device. -/
def vfsMount (listing : Listing) (s : Vfs) (dev mountpoint fstype : List Char)
    (cwd : Option Nat) (stale stale' : List Char) (rootClus : Except Fault Nat) :
    Except Fault (Int × Vfs) :=
  if fstype ≠ ['f', 'a', 't', '3', '2'] then .ok (-1, s)
  else
    vfsGetDentry listing s dev cwd stale >>= fun (dentDev, s) =>
      vfsGetDentry listing s mountpoint cwd stale' >>= fun (dentMp, s) =>
        match dentDev, dentMp with
        | none, _ => .ok (-3, s)
        | some _, none => .ok (-4, s)
        | some device, some mp =>
          if (s.dentry mp).type = .mounted then .ok (-6, s)
          else if (s.dentry device).inode = none then .error .nullPointer
          else
            rootClus >>= fun clus =>
              .ok (0, { (s.allocInode (s.volumeRoot clus)).mountOn mp s.inodes with
                volumes := s.volumes + 1 })

/-- After `init_vfs`: the root, `/sys` and `/dev`. -/
def init : Vfs where
  dentry d :=
    if d = 0 then { name := ['/'], inode := some 1, type := .dir, subdirs := [2, 1] }
    else if d = 1 then
      { parent := some ROOT, name := ['s', 'y', 's'], inode := some 3, type := .dir }
    else { parent := some ROOT, name := ['d', 'e', 'v'], inode := some 2, type := .dir }
  dentries := 3
  inode _ := { type := .dir }
  inodes := 4

end Vfs

end Mftt
