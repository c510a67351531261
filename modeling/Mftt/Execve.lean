import Mftt.Dentries
import Mftt.ExecStack
import Mftt.OpenFiles
import Mftt.PageMapRuns
import Mftt.PagePool
import Mftt.Scheduling
import Mftt.UserCopy

/-!
# Replacing the program of a process

`do_execve` as a whole: the lookup of the file, its file object, the pages of the new stack, the
removal of the old image and the loading of the new one. The old image is gone before the new one
is known to load, the lock of the process and the file object are taken before the first
allocation, and nothing is given back when a later step fails.

What the file of a dentry holds is a parameter, and so is the block that `kmalloc` returns for
the file object. A name of 16 or more characters runs over the two fields behind the array of
its process, which nothing here reads.
-/

namespace Mftt

open ByteMemory

/-- The fields of `proc_t` that `do_execve` reads or writes. -/
structure ExecProc where
  pageDir : Nat
  imageStart : Nat
  progBreak : Nat
  progSize : Nat
  stackTop : Nat
  stackBottom : Nat
  userPc : Nat
  sp : Nat
  a1 : Nat
  a2 : Nat
  name : List Char
  status : ProcStatus
  locked : Bool

/-- The kernel around a process. `stackWords` records the words that were stored to the pages of
a new stack. -/
structure ExecSystem (σ : Type) where
  vfs : Vfs
  files : OpenFiles
  machine : Machine σ
  memory : Bytes
  proc : ExecProc
  stackWords : List Nat := []

/-- What a call meets: the directories on disk, what `vfs_reader` stores for a dentry, the block
for the file object, and what local variables hold at first. -/
structure ExecEnv where
  listing : Listing
  reads : Nat → ElfReader
  block : Nat
  stale : List Char
  headers : Bytes × Bytes

structure ExecCall where
  path : List Char
  cwd : Option Nat
  args : ExecStack.Arguments

namespace ExecSystem

/-- `PG_ROUNDUP(PROC_STACK_SIZE) / PG_SIZE`. -/
abbrev STACK_PAGES : Nat := PROC_STACK_SIZE / PG_SIZE

abbrev STACK_TOP : Nat := PROC_STACK_BASE - PROC_STACK_SIZE

section Execve

variable {σ : Type} (A : PageAllocator σ)

/-- The two calls of `unmap_pages`. -/
def unmapOld (s : Machine σ) (proc : ExecProc) : Except Fault (Machine σ) :=
  unmapPages A s proc.pageDir proc.imageStart (pgRoundUp proc.progSize / PG_SIZE) true >>= fun s =>
    unmapPages A s proc.pageDir proc.stackTop
      (pgRoundUp ((proc.stackBottom + 2 ^ 64 - proc.stackTop) % 2 ^ 64) / PG_SIZE) true

/-- What the loader starts with. -/
def loadState (s : ExecSystem σ) (machine : Machine σ) (memory : Bytes) : Elf.LoadState σ where
  machine := machine
  memory := memory
  imageStart := s.proc.imageStart
  progBreak := s.proc.progBreak
  progSize := s.proc.progSize
  userPc := s.proc.userPc

/-- The registers and fields of the process after the new stack was mapped. -/
def launch (proc : ExecProc) (loaded : Elf.LoadState σ) (block : Nat) (stack : ExecStack.Stack)
    (name : List Char) : ExecProc :=
  let stackBottom := block + PROC_STACK_SIZE
  { proc with
    imageStart := loaded.imageStart
    progBreak := loaded.progBreak
    progSize := loaded.progSize
    userPc := loaded.userPc
    sp := ExecStack.alignDown (PROC_STACK_BASE - (stackBottom - stack.sp))
    a1 := PROC_STACK_SIZE - (stackBottom - stack.argvp)
    a2 := PROC_STACK_SIZE - (stackBottom - stack.envp)
    stackBottom := PROC_STACK_BASE
    stackTop := STACK_TOP
    name := name
    status := { ready := true, normal := true } }

/-- `do_execve` from the removal of the old image on; the lock is released before the file is
loaded. -/
def replaceImage (env : ExecEnv) (s : ExecSystem σ) (dentry block : Nat)
    (stack : ExecStack.Stack) : Except Fault (ExecSystem σ) :=
  unmapOld A s.machine s.proc >>= fun machine =>
    Elf.loadToProcess A (env.reads dentry) s.proc.pageDir env.headers
        (s.loadState machine stack.memory) >>= fun (ret, loaded) =>
      if ret = false then kpanic "no way...todo here"
      else
        mapPages A loaded.machine s.proc.pageDir STACK_TOP block PROC_STACK_SIZE PTE_TYPE_RW
            true false >>= fun (_, machine) =>
          s.files.vfsClose env.block >>= fun files =>
            .ok { s with
              files := files
              machine := machine
              memory := loaded.memory
              proc := launch { s.proc with locked := false } loaded block stack
                (s.vfs.dentry dentry).name
              stackWords := stack.words }

/-- The state with the file object, the pages of the stack and the lock taken. -/
def claim (s : ExecSystem σ) (files : OpenFiles) (pages : σ) : ExecSystem σ :=
  { s with
    files := files
    machine := { s.machine with pages := pages }
    proc := { s.proc with locked := true } }

/-- `do_execve` for a regular file, from `vfs_open` on. -/
def execFile (env : ExecEnv) (s : ExecSystem σ) (dentry : Nat) (args : ExecStack.Arguments) :
    Except Fault (Int × ExecSystem σ) :=
  s.files.vfsOpen ⟨(s.vfs.dentry dentry).inode, true⟩ env.block >>= fun files =>
    assert (s.proc.locked = false) "Acquired." >>= fun _ =>
      A.pageAlloc s.machine.pages STACK_PAGES USER_PAGES >>= fun (block, pages) =>
        let s := s.claim files pages
        if block = 0 then .ok (-4, s)
        else
          ExecStack.build block s.memory args >>= fun stack =>
            replaceImage A env s dentry block stack >>= fun s => .ok (args.argv.length, s)

/-- `do_execve`. -/
def doExecve (env : ExecEnv) (s : ExecSystem σ) (call : ExecCall) :
    Except Fault (Int × ExecSystem σ) :=
  s.vfs.vfsGetDentry env.listing call.path call.cwd env.stale >>= fun (dentry, vfs) =>
    let s := { s with vfs := vfs }
    match dentry with
    | none => .ok (-1, s)
    | some dentry =>
      if (vfs.dentry dentry).type ≠ .file then .ok (-2, s) else execFile A env s dentry call.args

end Execve

section ArgumentBlock

variable {σ : Type} (A : PageAllocator σ)

/-- The byte that the process reads at an address. -/
def userByte (s : ExecSystem σ) (va : Nat) : Option (BitVec 8) :=
  (translate A s.machine s.proc.pageDir va).bind fun t =>
    if t.u = 1 then some (s.memory (t.frame * PG_SIZE + va % PG_SIZE)) else none

/-- The process reads some bytes at an address. -/
def Reads (s : ExecSystem σ) (va : Nat) (bytes : List (BitVec 8)) : Prop :=
  ∀ i, i < bytes.length → userByte A s (va + i) = bytes[i]?

/-- The eight bytes of a word. -/
def wordBytes (word : Nat) : List (BitVec 8) :=
  (List.range 8).map fun i => BitVec.ofNat 8 (word / 256 ^ i)

/-- At `va` there are pointers to copies of the strings, which lie in the stack above the stack
pointer, and a NULL after them. -/
def StringTable (s : ExecSystem σ) (va : Nat) (strings : List CString) : Prop :=
  ∃ pointers : List Nat, pointers.length = strings.length ∧
    Reads A s va ((pointers ++ [0]).flatMap wordBytes) ∧
    ∀ (i pointer : Nat) (string : CString),
      pointers[i]? = some pointer → strings[i]? = some string →
      s.proc.sp ≤ pointer ∧ STACK_TOP ≤ pointer ∧ pointer + string.size ≤ PROC_STACK_BASE ∧
        Reads A s pointer string.bytes

/-- The arguments and the environment as a new program expects them, where `do_execve` returned
`result`. -/
structure ArgumentBlock (s : ExecSystem σ) (result : Int) (args : ExecStack.Arguments) :
    Prop where
  arguments : StringTable A s s.proc.a1 args.argv
  environment : StringTable A s s.proc.a2 args.env
  aligned : s.proc.sp % 8 = 0
  inStack : STACK_TOP ≤ s.proc.sp ∧ s.proc.sp < PROC_STACK_BASE
  below : s.proc.sp ≤ s.proc.a1 ∧ s.proc.sp ≤ s.proc.a2
  count : result = args.argv.length
  noKernelAddress : ∀ word ∈ s.stackWords, word < KERNEL_MEM_START

variable {A} {env : ExecEnv} {s s' : ExecSystem σ} {dentry : Nat}

theorem replace_image_words {block : Nat} {stack : ExecStack.Stack}
    (returns : replaceImage A env s dentry block stack = .ok s') :
    s'.stackWords = stack.words := by
  obtain ⟨machine, _, rest⟩ := bind_eq_ok.mp returns
  obtain ⟨⟨ret, loaded⟩, _, rest⟩ := bind_eq_ok.mp rest
  dsimp only at rest
  split_ifs at rest with invalid
  · cases rest
  · obtain ⟨⟨_, machine⟩, _, rest⟩ := bind_eq_ok.mp rest
    obtain ⟨files, _, rest⟩ := bind_eq_ok.mp rest
    cases rest
    rfl

/-- A call for a regular file that succeeds has built a stack in pages of its own. -/
theorem exec_file_stack {args : ExecStack.Arguments} {result : Int}
    (returns : execFile A env s dentry args = .ok (result, s')) (succeeds : 0 ≤ result) :
    ∃ block pages stack, A.pageAlloc s.machine.pages STACK_PAGES USER_PAGES = .ok (block, pages) ∧
      block ≠ 0 ∧ ExecStack.build block s.memory args = .ok stack ∧
        s'.stackWords = stack.words := by
  obtain ⟨files, _, rest⟩ := bind_eq_ok.mp returns
  obtain ⟨_, _, rest⟩ := bind_eq_ok.mp rest
  obtain ⟨⟨block, pages⟩, allocated, rest⟩ := bind_eq_ok.mp rest
  dsimp only at rest
  split_ifs at rest with null
  · cases rest
    omega
  · obtain ⟨stack, built, rest⟩ := bind_eq_ok.mp rest
    obtain ⟨s₁, replaced, rest⟩ := bind_eq_ok.mp rest
    cases rest
    exact ⟨block, pages, stack, allocated, null, built, replace_image_words replaced⟩

theorem execve_file {call : ExecCall} {result : Int}
    (returns : doExecve A env s call = .ok (result, s')) (succeeds : 0 ≤ result) :
    ∃ dentry vfs, execFile A env { s with vfs := vfs } dentry call.args = .ok (result, s') := by
  obtain ⟨⟨found, vfs⟩, _, rest⟩ := bind_eq_ok.mp returns
  dsimp only at rest
  split at rest
  · cases rest
    omega
  · split_ifs at rest with other
    · cases rest
      omega
    · exact ⟨_, vfs, rest⟩

/-- No program gets its arguments: every call that succeeds has stored the kernel address of the
table of the environment on the new stack, whose pages lie in kernel memory. -/
theorem execve_no_argument_block {call : ExecCall} {result : Int}
    (kernelPages : ∀ block pages, A.pageAlloc s.machine.pages STACK_PAGES USER_PAGES =
      .ok (block, pages) → block ≠ 0 → KERNEL_MEM_START ≤ block)
    (returns : doExecve A env s call = .ok (result, s')) (succeeds : 0 ≤ result) :
    ¬ArgumentBlock A s' result call.args := by
  intro passed
  obtain ⟨dentry, vfs, ran⟩ := execve_file returns succeeds
  obtain ⟨block, pages, stack, allocated, set, built, words⟩ := exec_file_stack ran succeeds
  obtain ⟨stored, above⟩ := ExecStack.build_stores_envp built
  have user := passed.noKernelAddress stack.envp (by rwa [words])
  have kernel := kernelPages block pages allocated set
  omega

end ArgumentBlock

section Atomicity

variable {σ : Type} (A : PageAllocator σ)

/-- Everything but the dentries in memory is as before. -/
structure Kept (s s' : ExecSystem σ) : Prop where
  files : s'.files = s.files
  machine : s'.machine = s.machine
  memory : s'.memory = s.memory
  proc : s'.proc = s.proc

/-- A call returns, and where it fails it has changed nothing. -/
def Atomic (s : ExecSystem σ) : Except Fault (Int × ExecSystem σ) → Prop
  | .ok (result, s') => result < 0 → Kept s s'
  | .error _ => False

/-- What `elf_load_to_process` reads as the header of a file. -/
def ehdr (env : ExecEnv) (dentry : Nat) : ByteMemory.Bytes :=
  Elf.readEhdr (env.reads dentry) env.headers.1

/-- The old image and stack can be removed, the segments of the file loaded and the new stack, at
`block`, mapped. -/
def Replaces (env : ExecEnv) (s : ExecSystem σ) (dentry block : Nat) : Prop :=
  ∃ machine ph loaded mapped, unmapOld A s.machine s.proc = .ok machine ∧
    (List.range (Elf.phnum (ehdr env dentry))).foldlM
      (Elf.loadTurn A (env.reads dentry) s.proc.pageDir (ehdr env dentry))
      (env.headers.2, { s.loadState machine s.memory with
        imageStart := 2 ^ 64 - 1, progBreak := 0, progSize := 0 }) = .ok (ph, loaded) ∧
    mapPages A loaded.machine s.proc.pageDir STACK_TOP block PROC_STACK_SIZE PTE_TYPE_RW
      true false = .ok mapped

/-- There are pages for the new stack, and the file is a program that can take the place of the old
one. -/
def Replaceable (env : ExecEnv) (s : ExecSystem σ) (dentry : Nat) : Prop :=
  ∃ block pages, A.pageAlloc s.machine.pages STACK_PAGES USER_PAGES = .ok (block, pages) ∧
    block ≠ 0 ∧ Elf.Executable (ehdr env dentry) ∧
    Replaces A env { s with machine := { s.machine with pages := pages } } dentry block

/-- What a call for a regular file needs. -/
structure CanRun (env : ExecEnv) (s : ExecSystem σ) (dentry : Nat) (args : ExecStack.Arguments) :
    Prop where
  inode : (s.vfs.dentry dentry).inode ≠ none
  file : env.block ≠ 0
  unlocked : s.proc.locked = false
  fits : ExecStack.needed args ≤ PROC_STACK_SIZE
  replaceable : Replaceable A env s dentry

/-- The calls that leave nothing half done: the path names nothing or something that is not a
regular file, or the program can be run. -/
def Settled (env : ExecEnv) (s : ExecSystem σ) (call : ExecCall) : Prop :=
  ∃ found vfs, s.vfs.vfsGetDentry env.listing call.path call.cwd env.stale = .ok (found, vfs) ∧
    ∀ dentry, found = some dentry → (vfs.dentry dentry).type = .file →
      CanRun A env { s with vfs := vfs } dentry call.args

variable {A} {env : ExecEnv} {s s' : ExecSystem σ} {dentry : Nat} {args : ExecStack.Arguments}

theorem atomic_bind {α : Type} {first : Except Fault α}
    {next : α → Except Fault (Int × ExecSystem σ)} :
    Atomic s (first >>= next) ↔ ∃ value, first = .ok value ∧ Atomic s (next value) := by
  cases first with
  | error fault => simp [Atomic]
  | ok value => simp [bind_ok]

theorem atomic_success {result : Int} (succeeds : 0 ≤ result) : Atomic s (.ok (result, s')) :=
  fun fails => absurd succeeds (not_le.mpr fails)

/-- The dentries in memory do not count. -/
theorem atomic_vfs (vfs : Vfs) {outcome : Except Fault (Int × ExecSystem σ)} :
    Atomic { s with vfs := vfs } outcome ↔ Atomic s outcome := by
  match outcome with
  | .error _ => exact Iff.rfl
  | .ok (result, s') =>
    constructor
    · intro atomic fails
      exact { atomic fails with }
    · intro atomic fails
      exact { atomic fails with }

/-- A file object that was just made can be closed. -/
theorem vfs_open_close {files files' : OpenFiles} {found : OpenFiles.Found} {block : Nat}
    (opens : files.vfsOpen found block = .ok files') :
    ∃ closed, files'.vfsClose block = .ok closed := by
  obtain ⟨_, _, rest⟩ := bind_eq_ok.mp opens
  split at rest
  · cases rest
  · split_ifs at rest with succeeds
    · cases rest
      simp [OpenFiles.vfsClose, OpenFiles.kmalloc, OpenFiles.setCounts, OpenFiles.kfree]
    · cases rest

theorem vfs_open_iff {files : OpenFiles} {inode : Option Nat} {block : Nat} :
    (∃ files', files.vfsOpen ⟨inode, true⟩ block = .ok files') ↔
      inode ≠ none ∧ block ≠ 0 := by
  cases inode <;> by_cases null : block = 0 <;> simp [OpenFiles.vfsOpen, notNull, null]

theorem replace_image_iff {block : Nat} {stack : ExecStack.Stack} {closed : OpenFiles}
    (closes : s.files.vfsClose env.block = .ok closed) :
    (∃ s', replaceImage A env s dentry block stack = .ok s') ↔
      Elf.Executable (ehdr env dentry) ∧ Replaces A env s dentry block := by
  constructor
  · rintro ⟨s', returns⟩
    obtain ⟨machine, unmapped, rest⟩ := bind_eq_ok.mp returns
    obtain ⟨⟨ret, loaded⟩, loads, rest⟩ := bind_eq_ok.mp rest
    dsimp only at rest
    split_ifs at rest with invalid
    · cases rest
    · obtain ⟨mapped, maps, _⟩ := bind_eq_ok.mp rest
      obtain ⟨m', loads'⟩ := Elf.load_to_process_memory s.memory loads
      rw [Bool.not_eq_false] at invalid
      rw [invalid] at loads'
      obtain ⟨executable, ph, turned, turns, ends⟩ := Elf.load_to_process_iff.mp loads'
      injection ends with same
      rw [← same] at maps
      exact ⟨executable, machine, ph, turned, mapped, unmapped, turns, maps⟩
  · rintro ⟨executable, machine, ph, turned, mapped, unmapped, turns, maps⟩
    obtain ⟨m', loads⟩ := Elf.load_to_process_memory stack.memory
      (Elf.load_to_process_iff.mpr ⟨executable, ph, turned, turns, rfl⟩)
    have loads' : Elf.loadToProcess A (env.reads dentry) s.proc.pageDir env.headers
        (s.loadState machine stack.memory) = .ok (true, _) := loads
    rw [replaceImage, unmapped, bind_ok, loads', bind_ok]
    dsimp only
    rw [maps, closes]
    exact ⟨_, rfl⟩

/-- A call for a regular file leaves nothing half done exactly when the program can be run. -/
theorem exec_file_atomic_iff
    (aligned : ∀ block pages, A.pageAlloc s.machine.pages STACK_PAGES USER_PAGES =
      .ok (block, pages) → block % PG_SIZE = 0) :
    Atomic s (execFile A env s dentry args) ↔ CanRun A env s dentry args := by
  rw [execFile]
  constructor
  · intro atomic
    obtain ⟨files, opened, atomic⟩ := atomic_bind.mp atomic
    obtain ⟨_, acquired, atomic⟩ := atomic_bind.mp atomic
    obtain ⟨⟨block, pages⟩, allocated, atomic⟩ := atomic_bind.mp atomic
    obtain ⟨inode, file⟩ := vfs_open_iff.mp ⟨files, opened⟩
    have unlocked := assert_eq_ok.mp acquired
    dsimp only at atomic
    split_ifs at atomic with null
    · have kept := congrArg ExecProc.locked (atomic (by decide)).proc
      rw [unlocked] at kept
      cases kept
    · obtain ⟨stack, built, atomic⟩ := atomic_bind.mp atomic
      obtain ⟨s', replaced, _⟩ := atomic_bind.mp atomic
      obtain ⟨closed, closes⟩ := vfs_open_close opened
      have closes' : (s.claim files pages).files.vfsClose env.block = .ok closed := closes
      refine ⟨inode, file, unlocked, ?_,
        block, pages, allocated, null, (replace_image_iff closes').mp ⟨s', replaced⟩⟩
      rcases ExecStack.build_cases null (aligned block pages allocated) args with
        ⟨fits, _⟩ | ⟨_, overflows⟩
      · exact fits
      · rw [overflows] at built
        cases built
  · rintro ⟨inode, file, unlocked, fits, block, pages, allocated, set, steps⟩
    obtain ⟨files, opened⟩ := vfs_open_iff.mpr ⟨inode, file⟩
    obtain ⟨closed, closes⟩ := vfs_open_close opened
    rw [opened, bind_ok, assert_true _ unlocked, bind_ok, allocated, bind_ok]
    dsimp only
    rw [if_neg set]
    rcases ExecStack.build_cases set (aligned block pages allocated) args with
      ⟨_, m', built⟩ | ⟨long, _⟩
    · have closes' : (s.claim files pages).files.vfsClose env.block = .ok closed := closes
      obtain ⟨s', replaced⟩ := (replace_image_iff closes').mpr steps
      rw [built, bind_ok, replaced]
      exact atomic_success (Int.natCast_nonneg _)
    · omega

/-- `do_execve` leaves nothing half done exactly in the calls of `Settled`. -/
theorem execve_atomic_iff {call : ExecCall}
    (aligned : ∀ block pages, A.pageAlloc s.machine.pages STACK_PAGES USER_PAGES =
      .ok (block, pages) → block % PG_SIZE = 0) :
    Atomic s (doExecve A env s call) ↔ Settled A env s call := by
  rw [doExecve, atomic_bind]
  constructor
  · rintro ⟨⟨found, vfs⟩, looked, atomic⟩
    refine ⟨found, vfs, looked, ?_⟩
    rintro dentry rfl regular
    dsimp only at atomic
    rw [if_neg (not_not.mpr regular)] at atomic
    exact (exec_file_atomic_iff (s := { s with vfs := vfs }) aligned).mp
      ((atomic_vfs vfs).mpr atomic)
  · rintro ⟨found, vfs, looked, runs⟩
    refine ⟨(found, vfs), looked, ?_⟩
    dsimp only
    split
    · exact fun _ => ⟨rfl, rfl, rfl, rfl⟩
    next dentry =>
      split_ifs with other
      · exact fun _ => ⟨rfl, rfl, rfl, rfl⟩
      · have runnable := runs dentry rfl (not_not.mp other)
        exact (atomic_vfs vfs).mp
          ((exec_file_atomic_iff (s := { s with vfs := vfs }) aligned).mpr runnable)

end Atomicity

/-! ## A shell that starts a program

The shell has one page of code and two of stack; the root directory holds one file. -/

section Shell

/-- Why a call did not return. -/
def fault {α : Type} : Except Fault α → Option Fault
  | .ok _ => none
  | .error fault => some fault

theorem eq_error_of_fault {α : Type} {call : Except Fault α} {why : Fault}
    (ends : fault call = some why) : call = .error why := by
  cases call with
  | ok value => cases ends
  | error other =>
    cases ends
    rfl

/-- The frames of the memory of the machine, none of them handed out. -/
def ram : Machine Pool := ⟨⟨0x80000, [], fun _ => 0⟩, fun _ _ => 0⟩

/-- The directory of the shell is in frame `0x80000`. -/
def shellDirectory : Machine Pool := landed (allocPageDir poolPages ram []) ram

/-- Pages are handed out and mapped. -/
def mapFresh (s : Machine Pool) (va size type : Nat) : Machine Pool :=
  let got := (poolPages.pageAlloc s.pages (size / PG_SIZE) USER_PAGES).toOption.getD (0, s.pages)
  landed (mapPages poolPages { s with pages := got.2 } 0x80000 va got.1 size type true false) s

def shellMachine : Machine Pool :=
  mapFresh (mapFresh shellDirectory 0x1000 PG_SIZE PTE_TYPE_RWX) STACK_TOP PROC_STACK_SIZE
    PTE_TYPE_RW

/-- The root directory and the file `prog`. -/
def shellVfs : Vfs where
  dentry d := if d = 0 then { type := .dir, inode := some 0, subdirs := [1] }
    else { parent := some 0, name := ['p', 'r', 'o', 'g'], inode := some 1, type := .file }
  dentries := 2
  inode _ := { op := some .device }
  inodes := 2

def shell : ExecSystem Pool where
  vfs := shellVfs
  files := ⟨fun _ => {}, ∅, fun _ => 0, fun _ => 0⟩
  machine := shellMachine
  memory _ := 0
  proc := {
    pageDir := 0x80000, imageStart := 0x1000, progBreak := 0x2000, progSize := 0x1000,
    stackTop := STACK_TOP, stackBottom := PROC_STACK_BASE,
    userPc := 0x1000, sp := PROC_STACK_BASE, a1 := 0, a2 := 0,
    name := ['s', 'h'], status := { running := true, normal := true }, locked := false }

/-- The number in `n` bytes, least significant byte first. -/
def field (n value : Nat) : List (BitVec 8) :=
  (List.range n).map fun i => BitVec.ofNat 8 (value / 256 ^ i)

/-- A program of one segment of four bytes. -/
def program : List (BitVec 8) :=
  [0x7F#8, 0x45#8, 0x4C#8, 0x46#8, 2#8, 1#8, 1#8] ++ field 9 0 ++ field 2 2 ++ field 2 243 ++
    field 4 1 ++ field 8 0x10000 ++ field 8 64 ++ field 8 0 ++ field 4 0 ++ field 2 64 ++
    field 2 56 ++ field 2 1 ++ field 2 64 ++ field 4 0 ++
  field 4 1 ++ field 4 5 ++ field 8 120 ++ field 8 0x10000 ++ field 8 0 ++ field 8 4 ++
    field 8 4 ++ field 8 8 ++
  [0x13#8, 0x05#8, 0xA0#8, 0x02#8]

/-- The shell calls `execve("/prog", {"prog"}, {})`. -/
def runProg : ExecCall where
  path := ['/', 'p', 'r', 'o', 'g']
  cwd := none
  args := {
    argv := [⟨[0x70#8, 0x72#8, 0x6F#8, 0x67#8], by decide⟩]
    env := []
    address := 0x80200000 }

/-- The file holds some content. -/
def holding (content : List (BitVec 8)) : ExecEnv where
  listing _ _ := .ok []
  reads _ offset size := (content.drop offset).take size
  block := 0x80201000
  stale := []
  headers := (fun _ => 0, fun _ => 0)

/-- The shell after the call. -/
def launched : ExecSystem Pool := landed (doExecve poolPages (holding program) shell runProg) shell

theorem program_runs :
    doExecve poolPages (holding program) shell runProg = .ok (1, launched) :=
  eq_landed (by decide +kernel)

/-- The words on the new stack: one pointer and no NULL for the empty environment, the table of
the arguments, their number, and the kernel addresses of `argv` and of the table. -/
theorem launched_words :
    launched.stackWords = [0x80000000, 0x7FFFFFFB, 0, 1, 0x80200000, 0x80009FF0] := by
  decide +kernel

/-- The program is started with kernel addresses on its stack. -/
theorem program_without_arguments :
    ∃ s', doExecve poolPages (holding program) shell runProg = .ok (1, s') ∧
      ExecStack.needed runProg.args ≤ PROC_STACK_SIZE ∧
      ¬ArgumentBlock poolPages s' 1 runProg.args := by
  refine ⟨launched, program_runs, by decide, ?_⟩
  intro passed
  have user := passed.noKernelAddress 0x80200000 (by rw [launched_words]; decide)
  exact absurd user (by decide)

theorem shell_pages {block : Nat} {pages : Pool}
    (allocated : poolPages.pageAlloc shell.machine.pages STACK_PAGES USER_PAGES =
      .ok (block, pages)) : block = 0x80008000 := by
  have gets : returned (poolPages.pageAlloc shell.machine.pages STACK_PAGES USER_PAGES) =
      some 0x80008000 := by decide +kernel
  rw [allocated] at gets
  exact Option.some.inj gets

theorem program_gets_no_block : ¬ArgumentBlock poolPages launched 1 runProg.args := by
  refine execve_no_argument_block ?_ program_runs (by decide)
  intro block pages allocated _
  rw [shell_pages allocated]
  decide

/-- A file that is no program is found out after the old image is gone. -/
theorem script_half_done :
    ExecStack.needed runProg.args ≤ PROC_STACK_SIZE ∧
      ¬Atomic shell (doExecve poolPages (holding [0x23#8, 0x21#8]) shell runProg) := by
  refine ⟨by decide, ?_⟩
  have ends : fault (doExecve poolPages (holding [0x23#8, 0x21#8]) shell runProg) =
      some (.kpanic "no way...todo here") := by decide +kernel
  rw [eq_error_of_fault ends]
  exact id

/-- The program is one that the shell can run. -/
theorem program_settled : Settled poolPages (holding program) shell runProg := by
  refine (execve_atomic_iff ?_).mp ?_
  · intro block pages allocated
    rw [shell_pages allocated]
    rfl
  · rw [program_runs]
    exact atomic_success (by decide)

end Shell

end ExecSystem

end Mftt
