import Mftt.PageFaults
import Mftt.PageMapRuns
import Mftt.PagePool
import Mftt.ProcessMemory
import Mftt.VmCopy

/-!
# The address space in `satp`

The hart translates through the directory whose frame is in `satp`: that of the process it
was switched to, or that of the kernel while it idles. The directories of the processes are
apart from each other and handed out, so that directory stays a table with the entry of the
kernel gigapage until it is freed. `do_exit` frees it: `proc_free` gives the tables of the
exiting process back while the hart still runs on them, and `satp` is switched only when the
scheduler loop chooses another process or idles.
-/

namespace Mftt

open Function

section

variable {σ : Type}

/-- Memory, the directories of the processes by process number, the directory of the kernel
and the frame in `satp`. -/
structure Host (σ : Type) where
  machine : Machine σ
  dirs : Nat → Option Nat
  kernelDir : Nat
  satp : Nat

/-- The directories in use. -/
def Host.roots (h : Host σ) : Set Nat := insert h.kernelDir {dir | ∃ pid, h.dirs pid = some dir}

/-- What happens to the address spaces. -/
inductive HostEvent where
  | create (pid : Nat)
  | map (pid : Nat)
  | fork (parent child : Nat)
  | fault (pid : Nat)
  | dispatch (pid : Nat)
  | idle
  | wait (pid : Nat)
  | access
  | exit (pid : Nat)

/-- Memory and allocator change, but no table does. -/
structure LeavesTables (holds : σ → Set Nat → Prop) (h : Host σ) (m : Machine σ) (live : Set Nat) :
    Prop where
  held : holds m.pages live
  handed : ∀ root ∈ h.roots, tables h.machine root ⊆ live
  words : ∀ root ∈ h.roots, ∀ f ∈ tables h.machine root, m.word f = h.machine.word f

/-- One step: `proc_alloc` makes a directory, the loader and the stack set-up map pages in it,
`do_fork` copies an address space, faults arrive, the scheduler loop switches to a process or
idles, `do_wait` releases the structure of an exited process, user and kernel code access
memory that is no table, and `do_exit` frees the address space of the current process. -/
inductive HostStep (A : PageAllocator σ) (managed : Set Nat) (holds : σ → Set Nat → Prop)
    (sysmaps : List MemSysmap) : Host σ → HostEvent → Host σ → Prop where
  | create {h : Host σ} {m : Machine σ} {pid dir : Nat} (free : h.dirs pid = none)
      (call : allocPageDir A h.machine sysmaps = .ok (some dir, m)) :
      HostStep A managed holds sysmaps h (.create pid)
        { h with machine := m, dirs := update h.dirs pid (some dir) }
  | map {h : Host σ} {m : Machine σ} {pid dir va pa size type : Nat} {user global : Bool}
      {result : Int} (space : h.dirs pid = some dir) (range : AddressRange va size)
      (nonempty : 1 ≤ size)
      (call : mapPages A h.machine dir va pa size type user global = .ok (result, m)) :
      HostStep A managed holds sysmaps h (.map pid) { h with machine := m }
  | fork {h : Host σ} {m : Machine σ} {parent child dir childDir : Nat} {image stack : Nat × Nat}
      (space : h.dirs parent = some dir) (free : h.dirs child = none)
      (low : image.2 ≤ 0x80000000 ∧ stack.2 ≤ 0x80000000)
      (frames : Managed managed h.machine dir 0 0x80000000)
      (call : forkSpace A h.machine sysmaps dir image stack = .ok (some childDir, m)) :
      HostStep A managed holds sysmaps h (.fork parent child)
        { h with machine := m, dirs := update h.dirs child (some childDir) }
  | fault {h : Host σ} {m : Machine σ} {pid dir va : Nat} {context : FaultContext}
      {fromKernel : Bool} {result : Int} (space : h.dirs pid = some dir)
      (usable : Usable managed context)
      (call : doPagefault A context h.machine va dir fromKernel = .ok (result, m)) :
      HostStep A managed holds sysmaps h (.fault pid) { h with machine := m }
  | dispatch {h : Host σ} {pid dir : Nat} (space : h.dirs pid = some dir) :
      HostStep A managed holds sysmaps h (.dispatch pid) { h with satp := dir }
  | idle {h : Host σ} :
      HostStep A managed holds sysmaps h .idle { h with satp := h.kernelDir }
  | wait {h : Host σ} {m : Machine σ} {live : Set Nat} {pid : Nat} (exited : h.dirs pid = none)
      (leaves : LeavesTables holds h m live) :
      HostStep A managed holds sysmaps h (.wait pid) { h with machine := m }
  | access {h : Host σ} {m : Machine σ} {live : Set Nat} (leaves : LeavesTables holds h m live) :
      HostStep A managed holds sysmaps h .access { h with machine := m }
  | exit {h : Host σ} {m : Machine σ} {pid dir : Nat} {layout : UserLayout} (notInit : pid ≠ 1)
      (space : h.dirs pid = some dir) (current : h.satp = dir)
      (call : freeSpace A h.machine dir layout = .ok m) :
      HostStep A managed holds sysmaps h (.exit pid)
        { h with machine := m, dirs := update h.dirs pid none }

/-- An event other than an exit. -/
def HostEvent.Stays (event : HostEvent) : Prop := ∀ pid, event ≠ .exit pid

/-- The states reached from `init_paging` by events that meet a condition. -/
inductive HostRun (A : PageAllocator σ) (managed : Set Nat) (holds : σ → Set Nat → Prop)
    (sysmaps : List MemSysmap) (allowed : HostEvent → Prop) : Host σ → Prop where
  | boot {s m : Machine σ} {live : Set Nat} {dir : Nat} (held : holds s.pages live)
      (call : initPaging A s = .ok (dir, m)) :
      HostRun A managed holds sysmaps allowed ⟨m, fun _ => none, dir, dir⟩
  | step {h h' : Host σ} {event : HostEvent} (run : HostRun A managed holds sysmaps allowed h)
      (meets : allowed event) (moves : HostStep A managed holds sysmaps h event h') :
      HostRun A managed holds sysmaps allowed h'

/-- The directory in `satp` and the tables below it are handed out, and it has the entry of
the kernel gigapage. -/
def ActiveAllocated (holds : σ → Set Nat → Prop) (h : Host σ) : Prop :=
  ∃ live, holds h.machine.pages live ∧ tables h.machine h.satp ⊆ live ∧
    h.machine.entry h.satp KERNEL_INDEX = kernelEntry

variable {A : PageAllocator σ} {managed : Set Nat} {holds : σ → Set Nat → Prop}
  {sysmaps : List MemSysmap} {allowed : HostEvent → Prop} {h h' : Host σ} {s m : Machine σ}

/-- The directories are apart and handed out, and `satp` has one of them. -/
structure HostInv (holds : σ → Set Nat → Prop) (h : Host σ) (live : Set Nat) : Prop where
  spaces : Spaces holds h.machine h.roots live
  active : h.satp ∈ h.roots

theorem dir_mem_roots {pid dir : Nat} (space : h.dirs pid = some dir) : dir ∈ h.roots :=
  .inr ⟨pid, space⟩

/-- A new directory joins those in use. -/
theorem roots_update {pid dir : Nat} (free : h.dirs pid = none) :
    Host.roots { h with machine := m, dirs := update h.dirs pid (some dir) } =
      insert dir h.roots := by
  ext root
  simp only [Host.roots]
  constructor
  · rintro (isKernel | ⟨other, found⟩)
    · exact .inr (.inl isKernel)
    · by_cases same : other = pid
      · rw [same, update_self] at found
        exact .inl (Option.some.inj found).symm
      · rw [update_of_ne same] at found
        exact .inr (.inr ⟨other, found⟩)
  · rintro (rfl | isKernel | ⟨other, found⟩)
    · exact .inr ⟨pid, update_self ..⟩
    · exact .inl isKernel
    · have different : other ≠ pid := by
        rintro rfl
        rw [free] at found
        cases found
      exact .inr ⟨other, (update_of_ne different ..).trans found⟩

theorem roots_none (m : Machine σ) (dir satp : Nat) :
    Host.roots ⟨m, fun _ => none, dir, satp⟩ = {dir} := by
  ext root
  simp [Host.roots]

theorem init_paging_inv (laws : FreshPages A managed holds) {live : Set Nat} {dir : Nat}
    (held : holds s.pages live) (call : initPaging A s = .ok (dir, m)) :
    ∃ live', HostInv holds ⟨m, fun _ => none, dir, dir⟩ live' := by
  rw [initPaging] at call
  obtain ⟨⟨p, pages⟩, allocates, goes⟩ := bind_eq_ok.mp call
  obtain ⟨_, valid, done⟩ := bind_eq_ok.mp goes
  have allocated : p ≠ 0 := by
    rintro rfl
    cases valid
  cases done
  obtain ⟨_, fresh, handed⟩ := laws.fresh held allocates allocated
  rw [block_frames_one] at handed
  have view : DirView holds _ (p / PG_SIZE) {p / PG_SIZE} (live ∪ {p / PG_SIZE}) :=
    ⟨directory_fresh { s with pages := pages } (p / PG_SIZE), handed, Set.subset_union_right⟩
  refine ⟨live ∪ {p / PG_SIZE}, ?_, .inl rfl⟩
  rw [roots_none]
  exact view.spaces

theorem host_step_inv (laws : FreshPages A managed holds) (avoid : SysmapsAvoid sysmaps)
    {live : Set Nat} (inv : HostInv holds h live) {event : HostEvent}
    (stays : event.Stays) (moves : HostStep A managed holds sysmaps h event h') :
    ∃ live', HostInv holds h' live' := by
  cases moves with
  | create free call =>
    obtain ⟨live', spaces, -⟩ := inv.spaces.alloc_page_dir laws avoid call
    refine ⟨live', ?_, ?_⟩
    · rw [roots_update free]
      exact spaces
    · rw [roots_update free]
      exact .inr inv.active
  | map space range nonempty call =>
    have member := dir_mem_roots space
    obtain ⟨owned', live', view', grows, -⟩ :=
      map_pages_spec laws (inv.spaces.view member) range nonempty call
    exact ⟨live', inv.spaces.grow view' grows member, inv.active⟩
  | fork space free low frames call =>
    obtain ⟨live', forked⟩ := fork_space_spec laws avoid inv.spaces (dir_mem_roots space) low.1
      low.2 frames call
    refine ⟨live', ?_, ?_⟩
    · rw [roots_update free]
      exact forked.spaces
    · rw [roots_update free]
      exact .inr inv.active
  | fault space usable call =>
    obtain ⟨live', ⟨grows, -⟩ | ⟨_, _, -, granted⟩⟩ :=
      pagefault_spec laws inv.spaces (dir_mem_roots space) usable call
    · exact ⟨live', grows.spaces, inv.active⟩
    · exact ⟨live', granted.grows.spaces, inv.active⟩
  | dispatch space => exact ⟨live, inv.spaces, dir_mem_roots space⟩
  | idle => exact ⟨live, inv.spaces, .inl rfl⟩
  | wait exited leaves =>
    exact ⟨_, inv.spaces.congr leaves.held leaves.handed leaves.words, inv.active⟩
  | access leaves =>
    exact ⟨_, inv.spaces.congr leaves.held leaves.handed leaves.words, inv.active⟩
  | exit notInit space current call => exact absurd rfl (stays _)

theorem HostRun.invariant (laws : FreshPages A managed holds) (avoid : SysmapsAvoid sysmaps)
    (run : HostRun A managed holds sysmaps HostEvent.Stays h) :
    ∃ live, HostInv holds h live := by
  induction run with
  | boot held call => exact init_paging_inv laws held call
  | step _ meets moves ih =>
    obtain ⟨live, inv⟩ := ih
    exact host_step_inv laws avoid inv meets moves

/-- In every state of a run without `do_exit` the directory in `satp` is handed out, with its
tables, and has the entry of the kernel gigapage. -/
theorem active_space_allocated (laws : FreshPages A managed holds)
    (avoid : SysmapsAvoid sysmaps)
    (run : HostRun A managed holds sysmaps HostEvent.Stays h) : ActiveAllocated holds h := by
  obtain ⟨live, inv⟩ := run.invariant laws avoid
  exact ⟨live, inv.spaces.pages, inv.spaces.handed _ inv.active,
    (inv.spaces.directory _ inv.active).kernel⟩

theorem HostRun.mono {wider : HostEvent → Prop} (wide : ∀ event, allowed event → wider event)
    (run : HostRun A managed holds sysmaps allowed h) :
    HostRun A managed holds sysmaps wider h := by
  induction run with
  | boot held call => exact .boot held call
  | step _ meets moves ih => exact .step ih (wide _ meets) moves

end

/-! ## A child that exits

`init` has one page of code and two of stack; it forks, and the child runs and exits. -/

/-- Hand out pages for a mapping. -/
def takePages (s : Machine Pool) (n : Nat) : Machine Pool :=
  { s with pages := landed (poolPages.pageAlloc s.pages n PAGE_TYPE_USER) s.pages }

/-- After `init_paging`; the directory of the kernel is in frame 1. -/
def kernelMade : Machine Pool := landed (initPaging poolPages blankPool) blankPool

/-- After `alloc_page_dir` for `init`; its directory is in frame 2. -/
def initMade : Machine Pool := landed (allocPageDir poolPages kernelMade []) kernelMade

/-- The page of code is in frame 3. -/
def codeMapped : Machine Pool :=
  landed (mapPages poolPages (takePages initMade 1) 2 0x1000 0x3000 PG_SIZE PTE_TYPE_RWX true
    false) initMade

/-- The pages of the stack are in frames 6 and 7. -/
def stackMapped : Machine Pool :=
  landed (mapPages poolPages (takePages codeMapped 2) 2 0x7FFFE000 0x6000 8192 PTE_TYPE_RW true
    false) initMade

/-- After the fork; the directory of the child is in frame 10. -/
def childMade : Machine Pool :=
  landed (forkSpace poolPages stackMapped [] 2 (0x1000, 0x2000) (0x7FFFE000, 0x80000000)) initMade

/-- The layout of parent and child. -/
def childLayout : UserLayout where
  imageStart := 0x1000
  progSize := 0x1000
  stackTop := 0x7FFFE000
  stackBottom := 0x80000000

/-- After the exit of the child. -/
def childGone : Machine Pool :=
    ((freeSpace poolPages childMade 10 childLayout).toOption).getD childMade

/-- The directories while there is only `init`. -/
def initDirs : Nat → Option Nat := update (fun _ => none) 1 (some 2)

/-- The directories while there are `init` and its child. -/
def familyDirs : Nat → Option Nat := update initDirs 2 (some 10)

/-- A run of the pool without exits. -/
abbrev FamilyRun (h : Host Pool) : Prop :=
  HostRun poolPages Set.univ PoolHolds [] HostEvent.Stays h

variable {h : Host Pool} {m : Machine Pool}

/-- Pages are handed out for a mapping. -/
theorem FamilyRun.takes (run : FamilyRun h) {n p : Nat} (allocated : p ≠ 0)
    (gets : returned (poolPages.pageAlloc h.machine.pages n PAGE_TYPE_USER) = some p) :
    FamilyRun { h with machine := takePages h.machine n } := by
  obtain ⟨live, inv⟩ := run.invariant pool_fresh no_sysmaps
  obtain ⟨-, -, handed⟩ := pool_fresh.fresh inv.spaces.pages (eq_landed gets) allocated
  have leaves : LeavesTables PoolHolds h (takePages h.machine n) (live ∪ blockFrames p n) :=
    ⟨handed, fun root member => (inv.spaces.handed root member).trans Set.subset_union_left,
      fun _ _ _ _ => rfl⟩
  exact .step run (by rintro _ ⟨⟩) (.access leaves)

/-- Pages are mapped for `init`. -/
theorem FamilyRun.maps (run : FamilyRun h) {dir va pa size type : Nat} {user global : Bool}
    {result : Int} (space : h.dirs 1 = some dir) (range : AddressRange va size)
    (nonempty : 1 ≤ size)
    (call : mapPages poolPages h.machine dir va pa size type user global = .ok (result, m)) :
    FamilyRun { h with machine := m } :=
  .step run (by rintro _ ⟨⟩) (.map space range nonempty call)

theorem init_created : FamilyRun ⟨initMade, initDirs, 1, 1⟩ := by
  have boots : initPaging poolPages blankPool = .ok (1, kernelMade) :=
    eq_landed (by decide +kernel)
  have creates : allocPageDir poolPages kernelMade [] = .ok (some 2, initMade) :=
    eq_landed (by decide +kernel)
  exact .step (.boot blank_pool_holds boots) (by rintro _ ⟨⟩) (.create rfl creates)

theorem code_maps : mapPages poolPages (takePages initMade 1) 2 0x1000 0x3000 PG_SIZE PTE_TYPE_RWX
    true false = .ok (0, codeMapped) :=
  eq_landed (by decide +kernel)

theorem init_loaded : FamilyRun ⟨stackMapped, initDirs, 1, 1⟩ := by
  have mapsStack : mapPages poolPages (takePages codeMapped 2) 2 0x7FFFE000 0x6000 8192
      PTE_TYPE_RW true false = .ok (0, stackMapped) := eq_landed (by decide +kernel)
  have codeTaken : FamilyRun ⟨takePages initMade 1, initDirs, 1, 1⟩ :=
    init_created.takes (show 0x3000 ≠ 0 by decide) (by decide +kernel)
  have code : FamilyRun ⟨codeMapped, initDirs, 1, 1⟩ :=
    codeTaken.maps rfl ⟨by decide, .inl (by decide)⟩ (by decide) code_maps
  have stackTaken : FamilyRun ⟨takePages codeMapped 2, initDirs, 1, 1⟩ :=
    code.takes (show 0x6000 ≠ 0 by decide) (by decide +kernel)
  exact stackTaken.maps rfl ⟨by decide, .inl (by decide)⟩ (by decide) mapsStack

/-- The child has been switched to. -/
theorem child_runs : FamilyRun ⟨childMade, familyDirs, 1, 10⟩ := by
  have forks : forkSpace poolPages stackMapped [] 2 (0x1000, 0x2000) (0x7FFFE000, 0x80000000) =
      .ok (some 10, childMade) := eq_landed (by decide +kernel)
  have moves : HostStep poolPages Set.univ PoolHolds [] ⟨stackMapped, initDirs, 1, 1⟩ (.fork 1 2)
      ⟨childMade, familyDirs, 1, 1⟩ :=
    .fork rfl rfl ⟨by decide, by decide⟩ (fun _ _ _ _ _ _ => trivial) forks
  have forked : FamilyRun ⟨childMade, familyDirs, 1, 1⟩ :=
    .step init_loaded (by rintro _ ⟨⟩) moves
  have switches : HostStep poolPages Set.univ PoolHolds [] ⟨childMade, familyDirs, 1, 1⟩
      (.dispatch 2) ⟨childMade, familyDirs, 1, 10⟩ := .dispatch rfl
  exact .step forked (by rintro _ ⟨⟩) switches

/-- A freed directory is not handed out. -/
theorem freed_not_allocated {satp : Nat} (freed : satp ∈ m.pages.freed) (dirs : Nat → Option Nat)
    (kernelDir : Nat) : ¬ ActiveAllocated PoolHolds ⟨m, dirs, kernelDir, satp⟩ := by
  rintro ⟨live, held, handed, -⟩
  exact held.freed_not_live freed (handed (root_mem_tables m satp))

/-- While the child runs, its directory is handed out. -/
theorem child_active : ActiveAllocated PoolHolds ⟨childMade, familyDirs, 1, 10⟩ :=
  active_space_allocated pool_fresh no_sysmaps child_runs

theorem child_exits : freeSpace poolPages childMade 10 childLayout = .ok childGone := by
  have returns : (freeSpace poolPages childMade 10 childLayout).isOk = true := by decide +kernel
  unfold childGone
  revert returns
  generalize freeSpace poolPages childMade 10 childLayout = call
  intro returns
  cases call with
  | error fault => cases returns
  | ok s => rfl

theorem child_dir_freed : 10 ∈ childGone.pages.freed := by
  decide +kernel

/-- After the exit of the child `satp` still has its directory, which has been freed. -/
theorem exit_frees_active :
    HostRun poolPages Set.univ PoolHolds [] (fun _ => True)
      ⟨childGone, update familyDirs 2 none, 1, 10⟩ ∧
    10 ∈ childGone.pages.freed ∧
    ¬ ActiveAllocated PoolHolds ⟨childGone, update familyDirs 2 none, 1, 10⟩ := by
  have moves : HostStep poolPages Set.univ PoolHolds [] ⟨childMade, familyDirs, 1, 10⟩ (.exit 2)
      ⟨childGone, update familyDirs 2 none, 1, 10⟩ :=
    .exit (by decide) rfl rfl child_exits
  refine ⟨?_, child_dir_freed, ?_⟩
  · exact .step (child_runs.mono fun _ _ => trivial) trivial moves
  · exact freed_not_allocated child_dir_freed _ _

end Mftt
