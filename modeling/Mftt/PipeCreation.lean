import Mftt.Pipe
import Mftt.SystemCalls

/-!
# sys_pipe2 and its cleanup

`sys_pipe2` gives a file to each of the two lowest free descriptors and hangs a new pipe on both.
Where an allocation fails it jumps to the cleanup, which empties the descriptors and frees their
files. But `kmalloc` returns NULL with `kmem_lock` held, and the first `kfree` of the cleanup then
panics.

What the three allocations return is an argument, the address 0 for NULL, and so are the outcome
of the copy of the descriptors to the process and `pipe_close`, which the cleanup never reaches.
-/

namespace Mftt

open Function

/-- `sizeof(file_t)` and `sizeof(pipe_t)`. -/
abbrev FILE_SIZE : Nat := 48
abbrev PIPE_STRUCT_SIZE : Nat := 544

/-- The fields of `file_t` that `memset` or `pipe_create` sets to something else than 0. `fOp`
tells whether `f_op` is `pipe_ops`, else it is NULL. -/
structure PipeFile where
  fMode : Nat := 0
  fOp : Bool := false
  fFsData : Nat := 0
  fCounts : Int := 0
  deriving DecidableEq

/-- The heap, the descriptor table of the process, and the files and pipes by address. -/
structure PipeCaller where
  blocks : Blocks
  files : Nat → Nat
  file : Nat → PipeFile
  pipe : Nat → Pipe

namespace PipeCaller

/-- `kmalloc` that returns `address`. -/
def kmalloc (s : PipeCaller) (address size : Nat) : Except Fault (Nat × PipeCaller) :=
  s.blocks.kmalloc (fun _ _ => .ok address) size >>= fun (p, blocks) =>
    .ok (p, { s with blocks := blocks })

/-- `ftable[i] = file`, after the `memset` of the file. -/
def install (s : PipeCaller) (i file : Nat) : PipeCaller :=
  { s with files := update s.files i file, file := update s.file file {} }

/-- The loop over the table from `i` on, with the descriptors so far. The result tells whether
every allocation succeeded. -/
def claim (outcome : Nat → Nat) :
    Nat → Nat → List Nat → PipeCaller → Except Fault (Bool × List Nat × PipeCaller)
  | 0, _, kfds, s => .ok (true, kfds, s)
  | left + 1, i, kfds, s =>
    if s.files i = 0 then
      s.kmalloc (outcome kfds.length) FILE_SIZE >>= fun (file, s) =>
        if file = 0 then .ok (false, kfds, s)
        else if (kfds ++ [i]).length = 2 then .ok (true, kfds ++ [i], s.install i file)
        else claim outcome left (i + 1) (kfds ++ [i]) (s.install i file)
    else claim outcome left (i + 1) kfds s

/-- A change of the fields of a file. -/
def modifyFile (s : PipeCaller) (file : Nat) (change : PipeFile → PipeFile) : PipeCaller :=
  { s with file := update s.file file (change (s.file file)) }

/-- `pipe_create`. -/
def pipeCreate (s : PipeCaller) (address reader writer : Nat) :
    Except Fault (Int × PipeCaller) :=
  let s := (s.modifyFile writer fun f =>
    { f with fOp := true, fCounts := 1, fMode := O_WRONLY }).modifyFile reader fun f =>
    { f with fOp := true, fCounts := 1, fMode := O_RDONLY }
  s.kmalloc address PIPE_STRUCT_SIZE >>= fun (pipe, s) =>
    if pipe = 0 then .ok (-1, s)
    else
      let s := { s with pipe := update s.pipe pipe Mftt.pipeCreate }
      .ok (0, (s.modifyFile reader fun f => { f with fFsData := pipe }).modifyFile writer fun f =>
        { f with fFsData := pipe })

/-- The cleanup behind the label `failed`. -/
def failed (pipeClose : PipeCaller → Nat → Except Fault PipeCaller) :
    List Nat → PipeCaller → Except Fault (Int × PipeCaller)
  | [], s => .ok (-1, s)
  | fd :: rest, s =>
    let file := s.files fd
    (if (s.file file).fFsData ≠ 0 ∧ (s.file file).fOp then pipeClose s file else .ok s) >>=
      fun s =>
        s.blocks.kfree file >>= fun blocks =>
          failed pipeClose rest { s with files := update s.files fd 0, blocks := blocks }

/-- `sys_pipe2`. -/
def sysPipe2 (pipeClose : PipeCaller → Nat → Except Fault PipeCaller) (outcome : Nat → Nat)
    (copied : Except Fault Unit) (s : PipeCaller) : Except Fault (Int × PipeCaller) :=
  claim outcome (MAX_FILE_OPEN - FIRST_FD) FIRST_FD [] s >>= fun (allocated, kfds, s) =>
    match allocated, kfds with
    | true, [reader, writer] =>
      s.pipeCreate (outcome 2) (s.files reader) (s.files writer) >>= fun (r, s) =>
        if r ≠ 0 then failed pipeClose kfds s else copied >>= fun _ => .ok (0, s)
    | _, _ => failed pipeClose kfds s

/-- The free descriptors, in their order. -/
def freeFds (s : PipeCaller) : List Nat :=
  (List.range' FIRST_FD (MAX_FILE_OPEN - FIRST_FD)).filter (s.files · = 0)

/-- The live blocks of the heap. -/
def live (s : PipeCaller) : Finset Nat := s.blocks.loose ∪ s.blocks.held

/-- The two lowest free descriptors are the ends of a new pipe, or nothing has changed. -/
def AllOrNothing (s : PipeCaller) (r : Int) (s' : PipeCaller) : Prop :=
  (r = 0 ∧ ∃ low high rest reader writer pipe, s.freeFds = low :: high :: rest ∧
    reader ∉ s.live ∧ writer ∉ s.live ∧ reader ≠ writer ∧ pipe ∉ s.live ∧
    s'.files = update (update s.files low reader) high writer ∧
    s'.file reader = { fMode := O_RDONLY, fOp := true, fFsData := pipe, fCounts := 1 } ∧
    s'.file writer = { fMode := O_WRONLY, fOp := true, fFsData := pipe, fCounts := 1 } ∧
    s'.pipe pipe = Mftt.pipeCreate) ∨
  (r = -1 ∧ s'.files = s.files ∧ s'.live = s.live)

/-- The allocations of the call: what they return is new. -/
def Fresh (s : PipeCaller) (outcome : Nat → Nat) : Prop :=
  ∀ k < 3, outcome k ≠ 0 → outcome k ∉ s.live ∧ ∀ j < 3, j ≠ k → outcome j ≠ outcome k

variable {outcome : Nat → Nat}

/-- The loop over a list of free descriptors. -/
def claimEach (outcome : Nat → Nat) :
    List Nat → List Nat → PipeCaller → Except Fault (Bool × List Nat × PipeCaller)
  | [], kfds, s => .ok (true, kfds, s)
  | i :: rest, kfds, s =>
    s.kmalloc (outcome kfds.length) FILE_SIZE >>= fun (file, s) =>
      if file = 0 then .ok (false, kfds, s)
      else if (kfds ++ [i]).length = 2 then .ok (true, kfds ++ [i], s.install i file)
      else claimEach outcome rest (kfds ++ [i]) (s.install i file)

/-- An allocation leaves the table. -/
theorem kmalloc_files {s s' : PipeCaller} {address size p : Nat}
    (returns : s.kmalloc address size = .ok (p, s')) : s'.files = s.files := by
  obtain ⟨⟨_, blocks⟩, -, given⟩ := bind_eq_ok.mp returns
  cases given
  rfl

/-- The loop comes to the descriptors that were free when it started. -/
theorem claim_eq (left i : Nat) (kfds : List Nat) (s : PipeCaller) :
    claim outcome left i kfds s =
      claimEach outcome ((List.range' i left).filter (s.files · = 0)) kfds s := by
  induction left generalizing i kfds s with
  | zero => rfl
  | succ left ih =>
    rw [claim, List.range'_succ]
    by_cases free : s.files i = 0
    · rw [if_pos free, List.filter_cons_of_pos (by simpa using free), claimEach]
      cases allocated : s.kmalloc (outcome kfds.length) FILE_SIZE with
      | error fault => rfl
      | ok given =>
        rw [bind_ok, bind_ok]
        dsimp only
        split
        · rfl
        · split
          · rfl
          · rw [ih, install, kmalloc_files allocated]
            congr 1
            apply List.filter_congr
            intro j inside
            have behind : j ≠ i := by
              have := List.mem_range'_1.mp inside
              omega
            simp [update_of_ne behind]
    · rw [if_neg free, List.filter_cons_of_neg (by simpa using free), ih]

section Outcomes

variable {pipeClose : PipeCaller → Nat → Except Fault PipeCaller} {copied : Except Fault Unit}
  {s : PipeCaller} {address size : Nat}

/-- The state after an allocation that failed: `kmem_lock` is held. -/
def stuck (s : PipeCaller) : PipeCaller := { s with blocks := { s.blocks with locked := true } }

/-- The state after an allocation. -/
def taken (s : PipeCaller) (address : Nat) : PipeCaller :=
  { s with blocks := { s.blocks with loose := insert address s.blocks.loose } }

theorem kmalloc_null (unlocked : s.blocks.locked = false) (null : address = 0) :
    s.kmalloc address size = .ok (0, s.stuck) := by
  simp [kmalloc, Blocks.kmalloc, unlocked, null, stuck]

theorem kmalloc_given (unlocked : s.blocks.locked = false) (given : address ≠ 0) :
    s.kmalloc address size = .ok (address, s.taken address) := by
  simp [kmalloc, Blocks.kmalloc, unlocked, given, taken]

/-- With the lock held the cleanup panics at its first file. -/
theorem failed_stuck {fd : Nat} {rest : List Nat} (locked : s.blocks.locked = true)
    (noPipe : (s.file (s.files fd)).fFsData = 0) :
    failed pipeClose (fd :: rest) s = kpanic "Acquired." := by
  simp [failed, noPipe, Blocks.kfree, locked, kpanic]

theorem sys_pipe2_eq : sysPipe2 pipeClose outcome copied s =
    (claimEach outcome s.freeFds [] s >>= fun (allocated, kfds, s) =>
      match allocated, kfds with
      | true, [reader, writer] =>
        s.pipeCreate (outcome 2) (s.files reader) (s.files writer) >>= fun (r, s) =>
          if r ≠ 0 then failed pipeClose kfds s else copied >>= fun _ => .ok (0, s)
      | _, _ => failed pipeClose kfds s) := by
  rw [sysPipe2, claim_eq]
  rfl

variable (unlocked : s.blocks.locked = false)
include unlocked

/-- Nothing is allocated, or the first allocation fails. -/
theorem sys_pipe2_nothing (none : s.freeFds = [] ∨ outcome 0 = 0) :
    ∃ s', sysPipe2 pipeClose outcome copied s = .ok (-1, s') ∧ s.AllOrNothing (-1) s' := by
  rw [sys_pipe2_eq]
  cases free : s.freeFds with
  | nil => exact ⟨s, rfl, .inr ⟨rfl, rfl, rfl⟩⟩
  | cons fd rest =>
    have null : outcome 0 = 0 := none.resolve_left (by simp [free])
    refine ⟨s.stuck, ?_, .inr ⟨rfl, rfl, rfl⟩⟩
    rw [claimEach, List.length_nil, kmalloc_null unlocked null]
    rfl

/-- With one descriptor its file is freed again. -/
theorem sys_pipe2_one {fd : Nat} (free : s.freeFds = [fd]) (fresh : s.Fresh outcome)
    (given : outcome 0 ≠ 0) :
    ∃ s', sysPipe2 pipeClose outcome copied s = .ok (-1, s') ∧ s.AllOrNothing (-1) s' := by
  have empty : s.files fd = 0 := by
    have inside : fd ∈ s.freeFds := by simp [free]
    simpa using (List.mem_filter.mp inside).2
  have outside := (fresh 0 (by decide) given).1
  rw [live, Finset.mem_union, not_or] at outside
  rw [sys_pipe2_eq, free, claimEach, List.length_nil, kmalloc_given unlocked given]
  simp only [bind_ok, given, if_false, List.nil_append, List.length_singleton, OfNat.one_ne_ofNat,
    claimEach, failed, install, taken, update_self, ne_eq, not_true_eq_false, false_and,
    Blocks.kfree, unlocked, notNull, Finset.mem_insert,
    Finset.erase_insert outside.1, Finset.erase_eq_of_notMem outside.2, update_idem]
  refine ⟨_, rfl, .inr ⟨rfl, ?_, rfl⟩⟩
  exact update_eq_self_iff.mpr empty.symm

section Two

variable {low high : Nat} {rest : List Nat} (free : s.freeFds = low :: high :: rest)
  (fresh : s.Fresh outcome) (given : outcome 0 ≠ 0)
include free given

/-- The second file is missing. -/
theorem sys_pipe2_second (null : outcome 1 = 0) :
    sysPipe2 pipeClose outcome copied s = kpanic "Acquired." := by
  rw [sys_pipe2_eq, free, claimEach, List.length_nil, kmalloc_given unlocked given, bind_ok]
  simp only [given, List.nil_append, List.length_singleton, claimEach]
  rw [kmalloc_null (s := (s.taken (outcome 0)).install low (outcome 0)) unlocked null]
  apply failed_stuck rfl
  simp [stuck, install]

include fresh

/-- The state with both files in their descriptors. -/
theorem claim_two (more : outcome 1 ≠ 0) :
    claimEach outcome s.freeFds [] s = .ok (true, [low, high],
      ((((s.taken (outcome 0)).install low (outcome 0)).taken (outcome 1)).install high
        (outcome 1))) ∧ low ≠ high ∧ outcome 0 ≠ outcome 1 := by
  have apart : s.freeFds.Nodup := List.Nodup.filter _ List.nodup_range'
  rw [free] at apart
  refine ⟨?_, ?_, fun same => (fresh 0 (by decide) given).2 1 (by decide) (by decide) same.symm⟩
  · rw [free, claimEach, List.length_nil, kmalloc_given unlocked given, bind_ok]
    simp only [given, List.nil_append, List.length_singleton, claimEach]
    rw [kmalloc_given (s := (s.taken (outcome 0)).install low (outcome 0)) unlocked more]
    simp [more]
  · rintro rfl
    simp at apart

theorem sys_pipe2_third (more : outcome 1 ≠ 0) (null : outcome 2 = 0) :
    sysPipe2 pipeClose outcome copied s = kpanic "Acquired." := by
  obtain ⟨claimed, apart, different⟩ := claim_two unlocked free fresh given more
  rw [sys_pipe2_eq, claimed, bind_ok]
  dsimp only
  rw [pipeCreate, kmalloc_null (by exact unlocked) null]
  apply failed_stuck rfl
  simp [stuck, modifyFile, install, taken, apart, different]

/-- Everything is there. -/
theorem sys_pipe2_all (more : outcome 1 ≠ 0) (all : outcome 2 ≠ 0) (writable : copied = .ok ()) :
    ∃ s', sysPipe2 pipeClose outcome copied s = .ok (0, s') ∧ s.AllOrNothing 0 s' := by
  obtain ⟨claimed, apart, different⟩ := claim_two unlocked free fresh given more
  rw [sys_pipe2_eq, claimed, bind_ok]
  dsimp only
  rw [pipeCreate, kmalloc_given (by exact unlocked) all]
  simp only [all, bind_ok, writable]
  refine ⟨_, rfl, .inl ⟨rfl, low, high, rest, outcome 0, outcome 1, outcome 2, free,
    (fresh 0 (by decide) given).1, (fresh 1 (by decide) more).1, different,
    (fresh 2 (by decide) all).1, rfl, ?_, ?_, ?_⟩⟩
  · simp [modifyFile, install, taken, apart, different]
  · simp [modifyFile, install, taken, apart, Ne.symm different]
  · simp [modifyFile]

end Two

end Outcomes

/-- Whatever the descriptor table is and the allocations return, `sys_pipe2` makes the two lowest
free descriptors the ends of a new pipe or leaves everything as it was, exactly unless two
descriptors are free, the first file is allocated, and the second file or the pipe is not. -/
theorem sys_pipe2_all_or_nothing_iff (pipeClose : PipeCaller → Nat → Except Fault PipeCaller)
    (outcome : Nat → Nat) (s : PipeCaller) (unlocked : s.blocks.locked = false)
    (fresh : s.Fresh outcome) :
    (∃ r s', sysPipe2 pipeClose outcome (.ok ()) s = .ok (r, s') ∧ s.AllOrNothing r s') ↔
      (2 ≤ s.freeFds.length → outcome 0 ≠ 0 → outcome 1 ≠ 0 ∧ outcome 2 ≠ 0) := by
  by_cases none : s.freeFds = [] ∨ outcome 0 = 0
  · refine iff_of_true ⟨-1, sys_pipe2_nothing unlocked none⟩ fun two given => ?_
    rcases none with empty | null
    · simp [empty] at two
    · exact absurd null given
  · obtain ⟨some_, given⟩ := not_or.mp none
    match free : s.freeFds with
    | [] => exact absurd free some_
    | [fd] => exact iff_of_true ⟨-1, sys_pipe2_one unlocked free fresh given⟩ (by simp)
    | low :: high :: rest =>
      by_cases second : outcome 1 = 0
      · rw [sys_pipe2_second unlocked free given second]
        simp [kpanic, second, given]
      · by_cases third : outcome 2 = 0
        · rw [sys_pipe2_third unlocked free fresh given second third]
          simp [kpanic, third, given]
        · exact iff_of_true ⟨0, sys_pipe2_all unlocked free fresh given second third rfl⟩
            (by simp [second, third])

/-- A process without open files on an empty heap. -/
def newcomer : PipeCaller := ⟨⟨∅, ∅, [], false⟩, fun _ => 0, fun _ => {}, fun _ => Mftt.pipeCreate⟩

/-- The heap serves the first file and then no more: the cleanup panics. -/
theorem second_file_panics :
    sysPipe2 (fun s _ => .ok s) (fun k => if k = 0 then 0x1000 else 0) (.ok ()) newcomer =
      kpanic "Acquired." := by
  have free : newcomer.freeFds = 3 :: 4 :: List.range' 5 123 := by decide
  exact sys_pipe2_second rfl free (by decide) rfl

/-- The addresses of three blocks. -/
def threeBlocks (k : Nat) : Nat := 0x1000 * (k + 1)

/-- The heap serves all three requests. -/
theorem newcomer_gets_pipe :
    ∃ r s', sysPipe2 (fun s _ => .ok s) threeBlocks (.ok ()) newcomer = .ok (r, s') ∧
      newcomer.AllOrNothing r s' := by
  have fresh : newcomer.Fresh threeBlocks := by
    refine fun k _ _ => ⟨by simp [live, newcomer], fun j _ other same => other ?_⟩
    rw [threeBlocks, threeBlocks] at same
    omega
  exact (sys_pipe2_all_or_nothing_iff (fun s _ => .ok s) threeBlocks newcomer rfl fresh).mpr
    (fun _ _ => ⟨by decide, by decide⟩)

end PipeCaller

end Mftt
