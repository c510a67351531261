import Mftt.RingBuffer
import Mftt.Interleaving

/-!
# Pipes

The pipe of `dev/pipe/pipe.c`: a ring of `PIPE_SIZE` bytes with two counters that run
modulo `2 ^ 64`, the open flags of its ends and its spinlock. Any number of
processes are inside `pipe_read`, `pipe_write` and `pipe_close` at once. A process
takes one step of its call at a time: it tests a loop condition, moves one byte,
takes or gives up the lock. `sleep` gives up the lock and takes it again later; a
sleeping process may be made ready by others than the pipe (an exiting child does
so), and therefore wakes at any time the lock is free.

The bytes of the caller's buffer are a function of the index the loop computes, an
`int` that wraps, so that no length is excluded.
-/

namespace Mftt

open RingBuffer Interleaving

abbrev PIPE_SIZE : Nat := 512

/-- The counters are `size_t`. -/
abbrev SIZE_T : Nat := 2 ^ 64

abbrev O_RDONLY : Nat := 0
abbrev O_WRONLY : Nat := 1

/-- `pipe_t`, with a mark for a pipe that has been given to `kfree`. -/
structure Pipe where
  locked : Bool
  nread : Nat
  nwrite : Nat
  readOpen : Bool
  writeOpen : Bool
  data : Nat → UInt8
  freed : Bool

/-- `pipe_create`, once `kmalloc` has given it a block. -/
def pipeCreate : Pipe where
  locked := false
  nread := 0
  nwrite := 0
  readOpen := true
  writeOpen := true
  data := fun _ => 0
  freed := false

/-- The buffer and counters of a pipe as a ring. -/
def Pipe.ring (pipe : Pipe) : Slots UInt8 :=
  ⟨pipe.nread, pipe.nwrite, pipe.data⟩

/-- `nwrite - nread`, in the arithmetic of `size_t`. -/
def Pipe.held (pipe : Pipe) : Nat :=
  pipe.ring.held SIZE_T

/-- The bytes a pipe holds, oldest first. -/
def Pipe.contents (pipe : Pipe) : List UInt8 :=
  pipe.ring.contents PIPE_SIZE SIZE_T

/-- An `int` as the `size_t` it is compared as. -/
def asSize (i : Int) : Nat := (i % 2 ^ 64).toNat

/-- `i++` on an `int`. -/
def intSucc (i : Int) : Int := (i + 1).bmod (2 ^ 32)

/-- Where a process is in its call on the pipe. -/
inductive PipeTask where
  | idle
  | readCall (fMode len : Nat)
  | readTest (len : Nat)
  | readAsleep (len : Nat)
  | readCopy (len : Nat) (i : Int)
  | writeCall (fMode : Nat) (buffer : Int → UInt8) (len : Nat)
  | writeTest (buffer : Int → UInt8) (len : Nat) (i : Int)
  | writeFull (buffer : Int → UInt8) (len : Nat) (i : Int)
  | writeAsleep (buffer : Int → UInt8) (len : Nat) (i : Int)
  | closeCall (fMode : Nat)
  | closeSet (fMode : Nat)

/-- The tasks a process takes up when it calls one of the three operations. -/
def PipeTask.isCall : PipeTask → Prop
  | readCall _ len => len < SIZE_T
  | writeCall _ _ len => len < SIZE_T
  | closeCall _ => True
  | _ => False

/-- The tasks that run with the pipe's lock taken. -/
def PipeTask.holdsLock : PipeTask → Prop
  | readTest _ | readCopy _ _ | writeTest _ _ _ | writeFull _ _ _ | closeSet _ => True
  | _ => False

/-- What a step shows: a byte stored in the pipe, a byte stored at an index of the reader's
buffer, or the value a call returns. -/
inductive PipeEvent where
  | silent
  | accepted (byte : UInt8)
  | delivered (i : Int) (byte : UInt8)
  | readReturned (len : Nat) (value : Int)
  | writeReturned (value : Int)

/-- `spinlock_acquire(&pipe->lock)`: no step while another holds it. Every caller has a
reference to a file of the pipe, so nobody locks a freed one. -/
def Pipe.acquire (pipe : Pipe) (task : PipeTask) : Option (Pipe × PipeTask × PipeEvent) :=
  if pipe.locked || pipe.freed then none
  else some ({ pipe with locked := true }, task, .silent)

/-- `spinlock_release(&pipe->lock)`. -/
def Pipe.release (pipe : Pipe) : Pipe := { pipe with locked := false }

/-- `pipe->data[pipe->nwrite++ % PIPE_SIZE] = byte`. -/
def Pipe.store (pipe : Pipe) (byte : UInt8) : Pipe :=
  { pipe with
    nwrite := (pipe.nwrite + 1) % SIZE_T
    data := Function.update pipe.data (pipe.nwrite % PIPE_SIZE) byte }

/-- The byte `pipe->data[pipe->nread % PIPE_SIZE]`. -/
def Pipe.next (pipe : Pipe) : UInt8 := pipe.data (pipe.nread % PIPE_SIZE)

/-- `pipe->nread++`. -/
def Pipe.advance (pipe : Pipe) : Pipe := { pipe with nread := (pipe.nread + 1) % SIZE_T }

/-- One turn of the copying loop of `pipe_read`. -/
def readCopyStep (pipe : Pipe) (len : Nat) (i : Int) : Pipe × PipeTask × PipeEvent :=
  if asSize i < len then
    if pipe.nread = pipe.nwrite then (pipe.release, .idle, .readReturned len i)
    else (pipe.advance, .readCopy len (intSucc i), .delivered i pipe.next)
  else (pipe.release, .idle, .readReturned len i)

/-- One turn of the inner loop of `pipe_write`, and the store after it. -/
def writeFullStep (pipe : Pipe) (buffer : Int → UInt8) (len : Nat) (i : Int) :
    Pipe × PipeTask × PipeEvent :=
  if pipe.nwrite = (pipe.nread + PIPE_SIZE) % SIZE_T then
    if pipe.readOpen = false then (pipe.release, .idle, .writeReturned (-1))
    else (pipe.release, .writeAsleep buffer len i, .silent)
  else (pipe.store (buffer i), .writeTest buffer len (intSucc i), .accepted (buffer i))

/-- `pipe_close` inside its lock; the second end to be closed frees the pipe. -/
def closeSetStep (pipe : Pipe) (fMode : Nat) : Pipe :=
  let closed :=
    if fMode = O_WRONLY then { pipe with writeOpen := false }
    else { pipe with readOpen := false }
  if closed.readOpen = false ∧ closed.writeOpen = false then
    { closed.release with freed := true }
  else closed.release

/-- The next step of a call, or `none` where it spins on the lock. -/
def pipeStep (pipe : Pipe) : PipeTask → Option (Pipe × PipeTask × PipeEvent)
  | .idle => none
  | .readCall fMode len =>
    if fMode ≠ O_RDONLY then some (pipe, .idle, .readReturned len (-1))
    else pipe.acquire (.readTest len)
  | .readTest len =>
    if pipe.nread = pipe.nwrite ∧ pipe.writeOpen then
      some (pipe.release, .readAsleep len, .silent)
    else some (pipe, .readCopy len 0, .silent)
  | .readAsleep len => pipe.acquire (.readTest len)
  | .readCopy len i => some (readCopyStep pipe len i)
  | .writeCall fMode buffer len =>
    if fMode ≠ O_WRONLY then some (pipe, .idle, .writeReturned (-1))
    else pipe.acquire (.writeTest buffer len 0)
  | .writeTest buffer len i =>
    if asSize i < len then some (pipe, .writeFull buffer len i, .silent)
    else some (pipe.release, .idle, .writeReturned i)
  | .writeFull buffer len i => some (writeFullStep pipe buffer len i)
  | .writeAsleep buffer len i => pipe.acquire (.writeFull buffer len i)
  | .closeCall fMode => pipe.acquire (.closeSet fMode)
  | .closeSet fMode => some (closeSetStep pipe fMode, .idle, .silent)

/-- A process outside the pipe begins any call; one inside takes its next step. -/
inductive PipeMoves : Pipe → PipeTask → PipeEvent → Pipe → PipeTask → Prop where
  | call {pipe task} : task.isCall → PipeMoves pipe .idle .silent pipe task
  | step {pipe task pipe' task' event} : pipeStep pipe task = some (pipe', task', event) →
      PipeMoves pipe task event pipe' task'

section

variable {ι : Type*} [DecidableEq ι]

/-- A fresh pipe, with every process outside it. -/
def pipeStart : System ι Pipe PipeTask := ⟨pipeCreate, fun _ => .idle⟩

/-- The runs of all processes on one pipe since its creation. -/
abbrev PipeRun : List (ι × PipeEvent) → System ι Pipe PipeTask → Prop :=
  Run PipeMoves pipeStart

end

/-- The byte an event adds to the stream of accepted bytes. -/
def PipeEvent.acceptedByte : PipeEvent → Option UInt8
  | .accepted byte => some byte
  | _ => none

/-- The byte an event adds to the stream of delivered bytes. -/
def PipeEvent.deliveredByte : PipeEvent → Option UInt8
  | .delivered _ byte => some byte
  | _ => none

/-- The bytes all writes of a run have put into the pipe, in order. -/
def acceptedBytes {ι : Type*} (trace : List (ι × PipeEvent)) : List UInt8 :=
  trace.filterMap fun entry => entry.2.acceptedByte

/-- The bytes all reads of a run have taken from the pipe, in order. -/
def deliveredBytes {ι : Type*} (trace : List (ι × PipeEvent)) : List UInt8 :=
  trace.filterMap fun entry => entry.2.deliveredByte

/-! ## What a step does to the queue -/

/-- The counters are reduced and at most `PIPE_SIZE` apart. -/
def Pipe.Bounded (pipe : Pipe) : Prop := pipe.ring.Bounded PIPE_SIZE SIZE_T

theorem pipe_size_lt : PIPE_SIZE < SIZE_T := by decide

theorem pipe_size_dvd : PIPE_SIZE ∣ SIZE_T := by decide

/-- What one step may do to the pipe's queue, and the event that shows it. -/
inductive QueueChange (pipe pipe' : Pipe) : PipeEvent → Prop where
  | kept {event} : pipe'.ring = pipe.ring → event.acceptedByte = none →
      event.deliveredByte = none → QueueChange pipe pipe' event
  | added (byte) : pipe.held < PIPE_SIZE → pipe'.ring = pipe.ring.add PIPE_SIZE SIZE_T byte →
      QueueChange pipe pipe' (.accepted byte)
  | taken (i) : 0 < pipe.held → pipe'.ring = pipe.ring.take SIZE_T →
      QueueChange pipe pipe' (.delivered i (pipe.ring.front PIPE_SIZE))

variable {pipe pipe' : Pipe} {task task' : PipeTask} {event : PipeEvent} {len : Nat} {i : Int}

/-- Locking, unlocking and closing leave the queue alone. -/
theorem queue_change_acquire (steps : pipe.acquire task = some (pipe', task', event)) :
    QueueChange pipe pipe' event := by
  rw [Pipe.acquire] at steps
  split at steps
  · contradiction
  · cases steps
    exact .kept rfl rfl rfl

theorem queue_change_read_copy (bounded : pipe.Bounded)
    (steps : readCopyStep pipe len i = (pipe', task', event)) : QueueChange pipe pipe' event := by
  rw [readCopyStep] at steps
  split at steps
  · split at steps
    · cases steps
      exact .kept rfl rfl rfl
    · rename_i nonempty
      cases steps
      apply QueueChange.taken i _ rfl
      exact Nat.pos_of_ne_zero fun empty => nonempty ((taken_eq_added_iff bounded).mpr empty)
  · cases steps
    exact .kept rfl rfl rfl

theorem queue_change_write_full {buffer : Int → UInt8} (bounded : pipe.Bounded)
    (steps : writeFullStep pipe buffer len i = (pipe', task', event)) :
    QueueChange pipe pipe' event := by
  rw [writeFullStep] at steps
  split at steps
  · split at steps <;> cases steps <;> exact .kept rfl rfl rfl
  · rename_i notFull
    cases steps
    apply QueueChange.added _ _ rfl
    have most : pipe.held ≤ PIPE_SIZE := bounded.held_le
    apply lt_of_le_of_ne most
    intro full
    exact notFull ((added_eq_taken_add_iff bounded pipe_size_lt).mpr full)

theorem close_set_ring (pipe : Pipe) (fMode : Nat) :
    (closeSetStep pipe fMode).ring = pipe.ring := by
  rw [closeSetStep]
  split <;> split <;> rfl

/-- Every step of every call keeps the queue, appends one byte or removes its front. -/
theorem queue_change (bounded : pipe.Bounded) (moves : PipeMoves pipe task event pipe' task') :
    QueueChange pipe pipe' event := by
  cases moves with
  | call => exact .kept rfl rfl rfl
  | step steps =>
    cases task <;> rw [pipeStep] at steps
    case idle => contradiction
    case readAsleep => exact queue_change_acquire steps
    case writeAsleep => exact queue_change_acquire steps
    case closeCall => exact queue_change_acquire steps
    case readCopy => exact queue_change_read_copy bounded (Option.some.inj steps)
    case writeFull => exact queue_change_write_full bounded (Option.some.inj steps)
    case closeSet fMode =>
      cases steps
      exact .kept (close_set_ring pipe fMode) rfl rfl
    case readCall =>
      split at steps
      · cases steps
        exact .kept rfl rfl rfl
      · exact queue_change_acquire steps
    case writeCall =>
      split at steps
      · cases steps
        exact .kept rfl rfl rfl
      · exact queue_change_acquire steps
    case readTest => split at steps <;> cases steps <;> exact .kept rfl rfl rfl
    case writeTest => split at steps <;> cases steps <;> exact .kept rfl rfl rfl

theorem QueueChange.bounded (change : QueueChange pipe pipe' event) (bounded : pipe.Bounded) :
    pipe'.Bounded := by
  rw [Pipe.Bounded] at bounded ⊢
  cases change with
  | kept same => rwa [same]
  | added byte room same =>
    rw [same]
    exact bounded_add bounded pipe_size_lt room byte
  | taken i nonempty same =>
    rw [same]
    exact bounded_take bounded pipe_size_lt nonempty

/-- The queue is the stream of accepted bytes without those delivered. -/
theorem QueueChange.stream (change : QueueChange pipe pipe' event) (bounded : pipe.Bounded) :
    pipe.contents ++ event.acceptedByte.toList =
      event.deliveredByte.toList ++ pipe'.contents := by
  cases change with
  | kept same notAccepted notDelivered =>
    rw [notAccepted, notDelivered, Pipe.contents, Pipe.contents, same, Option.toList_none,
      List.append_nil, List.nil_append]
  | added byte room same =>
    have appended := contents_add bounded pipe_size_lt pipe_size_dvd room byte
    rw [Pipe.contents, Pipe.contents, same, appended, PipeEvent.acceptedByte,
      PipeEvent.deliveredByte, Option.toList_none, Option.toList_some, List.nil_append]
    all_goals nofun
  | taken i nonempty same =>
    have removed := contents_take bounded pipe_size_lt pipe_size_dvd nonempty
    rw [Pipe.contents, Pipe.contents, same, removed, PipeEvent.acceptedByte,
      PipeEvent.deliveredByte, Option.toList_none, Option.toList_some, List.append_nil,
      List.singleton_append]
    all_goals nofun

/-! ## The lock -/

theorem acquire_cases (steps : pipe.acquire task = some (pipe', task', event)) :
    pipe.locked = false ∧ pipe' = { pipe with locked := true } ∧ task' = task ∧
      event = .silent := by
  rw [Pipe.acquire] at steps
  split at steps
  · contradiction
  · rename_i free
    cases steps
    simp only [Bool.or_eq_true, not_or, Bool.not_eq_true] at free
    exact ⟨free.1, rfl, rfl, rfl⟩

/-- Without the lock a step leaves the pipe alone, or takes the lock. -/
theorem outside_lock (outside : ¬ task.holdsLock) (moves : PipeMoves pipe task event pipe' task') :
    (pipe' = pipe ∧ ¬ task'.holdsLock) ∨
      (pipe.locked = false ∧ pipe' = { pipe with locked := true } ∧
        ∀ len i, task' ≠ .readCopy len i) := by
  cases moves with
  | call isCall =>
    apply Or.inl
    refine ⟨rfl, ?_⟩
    cases task' <;> simp_all [PipeTask.isCall, PipeTask.holdsLock]
  | step steps =>
    cases task <;> rw [pipeStep] at steps
    case idle => contradiction
    case readTest => exact absurd trivial outside
    case readCopy => exact absurd trivial outside
    case writeTest => exact absurd trivial outside
    case writeFull => exact absurd trivial outside
    case closeSet => exact absurd trivial outside
    case readAsleep =>
      obtain ⟨free, taken, rfl, _⟩ := acquire_cases steps
      exact .inr ⟨free, taken, nofun⟩
    case writeAsleep =>
      obtain ⟨free, taken, rfl, _⟩ := acquire_cases steps
      exact .inr ⟨free, taken, nofun⟩
    case closeCall =>
      obtain ⟨free, taken, rfl, _⟩ := acquire_cases steps
      exact .inr ⟨free, taken, nofun⟩
    case readCall =>
      split at steps
      · cases steps
        exact .inl ⟨rfl, id⟩
      · obtain ⟨free, taken, rfl, _⟩ := acquire_cases steps
        exact .inr ⟨free, taken, nofun⟩
    case writeCall =>
      split at steps
      · cases steps
        exact .inl ⟨rfl, id⟩
      · obtain ⟨free, taken, rfl, _⟩ := acquire_cases steps
        exact .inr ⟨free, taken, nofun⟩

theorem inside_lock (inside : task.holdsLock) (stays : task'.holdsLock)
    (moves : PipeMoves pipe task event pipe' task') : pipe'.locked = pipe.locked := by
  cases moves with
  | call => exact absurd inside id
  | step steps =>
    cases task <;> rw [pipeStep] at steps
    case readTest =>
      split at steps <;> cases steps
      · exact absurd stays id
      · rfl
    case writeTest =>
      split at steps <;> cases steps
      · rfl
      · exact absurd stays id
    case readCopy =>
      rw [readCopyStep] at steps
      split at steps
      · split at steps <;> cases steps
        · exact absurd stays id
        · rfl
      · cases steps
        exact absurd stays id
    case writeFull =>
      rw [writeFullStep] at steps
      split at steps
      · split at steps <;> cases steps <;> exact absurd stays id
      · cases steps
        rfl
    case closeSet =>
      cases steps
      exact absurd stays id
    all_goals exact absurd inside id

/-- The pipe's lock guards the parts of the calls that touch the buffer. -/
theorem pipe_guards :
    Guards PipeMoves (fun pipe => pipe.locked = true) PipeTask.holdsLock where
  enters := by
    intro pipe task event pipe' task' moves outside inside
    rcases outside_lock outside moves with ⟨_, still⟩ | ⟨free, taken, _⟩
    · exact absurd inside still
    · rw [free, taken]
      exact ⟨Bool.false_ne_true, rfl⟩
  stays := by
    intro pipe task event pipe' task' moves inside stays locked
    rw [inside_lock inside stays moves, locked]
  outside := by
    intro pipe task event pipe' task' moves outside _ locked
    rcases outside_lock outside moves with ⟨same, _⟩ | ⟨_, taken, _⟩
    · rw [same, locked]
    · rw [taken]

/-! ## Reads that copy nothing -/

/-- What holds while a reader copies: its index counts the bytes copied since it took the lock,
and a reader that has copied none and finds none knows that the write end is closed. -/
structure Copying (pipe : Pipe) (i : Int) : Prop where
  nonneg : 0 ≤ i
  fits : i + pipe.held ≤ PIPE_SIZE
  closed : i = 0 → pipe.held = 0 → pipe.writeOpen = false

theorem int_succ_of_small (nonneg : 0 ≤ i) (small : i < PIPE_SIZE) : intSucc i = i + 1 := by
  simp only [PIPE_SIZE] at small
  apply Int.bmod_eq_of_le <;> norm_num <;> omega

/-- A reader that goes on copying was copying, or has just left the waiting loop. -/
theorem copying_step (bounded : pipe.Bounded)
    (copying : ∀ len i, task = .readCopy len i → Copying pipe i)
    (moves : PipeMoves pipe task event pipe' (.readCopy len i)) : Copying pipe' i := by
  by_cases inside : task.holdsLock
  · cases moves with
    | call => exact absurd inside id
    | step steps =>
      cases task <;> rw [pipeStep] at steps
      case readTest =>
        split at steps <;> cases steps
        rename_i test
        constructor
        · exact le_refl 0
        · have most : pipe.held ≤ PIPE_SIZE := bounded.held_le
          omega
        · intro _ empty
          have same : pipe.nread = pipe.nwrite := (taken_eq_added_iff bounded).mpr empty
          simpa [same] using test
      case readCopy len' j =>
        have before := copying _ _ rfl
        rw [readCopyStep] at steps
        split at steps
        · split at steps
          · cases steps
          rename_i nonempty
          cases steps
          have some_held : 0 < pipe.held := Nat.pos_of_ne_zero fun empty =>
            nonempty ((taken_eq_added_iff bounded).mpr empty)
          have fewer : pipe.advance.held = pipe.held - 1 :=
            held_take bounded pipe_size_lt some_held
          have fits := before.fits
          have nonneg := before.nonneg
          rw [int_succ_of_small nonneg (by omega)]
          constructor <;> omega
        · cases steps
      case writeTest => split at steps <;> cases steps
      case writeFull =>
        rw [writeFullStep] at steps
        split at steps
        · split at steps <;> cases steps
        · cases steps
      case closeSet => cases steps
      all_goals exact absurd inside id
  · rcases outside_lock inside moves with ⟨_, still⟩ | ⟨_, _, notCopying⟩
    · exact absurd trivial still
    · exact absurd rfl (notCopying len i)

/-- A read returns 0 only when the pipe is empty and closed for writing. -/
theorem read_returned_zero (bounded : pipe.Bounded)
    (copying : ∀ len i, task = .readCopy len i → Copying pipe i) (positive : 0 < len)
    (moves : PipeMoves pipe task (.readReturned len 0) pipe' task') :
    pipe.nread = pipe.nwrite ∧ pipe.writeOpen = false := by
  cases moves with
  | step steps =>
    cases task <;> rw [pipeStep] at steps
    case idle => contradiction
    case readAsleep => exact absurd (acquire_cases steps).2.2.2 nofun
    case writeAsleep => exact absurd (acquire_cases steps).2.2.2 nofun
    case closeCall => exact absurd (acquire_cases steps).2.2.2 nofun
    case closeSet => cases steps
    case readTest => split at steps <;> cases steps
    case writeTest => split at steps <;> cases steps
    case readCall =>
      split at steps
      · cases steps
      · exact absurd (acquire_cases steps).2.2.2 nofun
    case writeCall =>
      split at steps
      · cases steps
      · exact absurd (acquire_cases steps).2.2.2 nofun
    case writeFull =>
      rw [writeFullStep] at steps
      split at steps
      · split at steps <;> cases steps
      · cases steps
    case readCopy =>
      rw [readCopyStep] at steps
      split at steps
      · split at steps
        · rename_i empty
          cases steps
          have none_held := (taken_eq_added_iff bounded).mp empty
          exact ⟨empty, (copying _ _ rfl).closed rfl none_held⟩
        · cases steps
      · rename_i notLess
        cases steps
        exact absurd positive notLess

/-! ## Runs -/

theorem pipe_create_bounded : pipeCreate.Bounded := by
  constructor <;> decide

theorem pipe_create_empty : pipeCreate.contents = [] := by
  decide

section

variable {ι : Type*}

/-- What every state of a run satisfies, with the bytes that went in and out on the way. -/
structure PipeInv (trace : List (ι × PipeEvent)) (s : System ι Pipe PipeTask) : Prop where
  bounded : s.shared.Bounded
  stream : acceptedBytes trace = deliveredBytes trace ++ s.shared.contents
  exclusive : Exclusive (fun pipe => pipe.locked = true) PipeTask.holdsLock s
  copying : ∀ i len k, s.thread i = .readCopy len k → Copying s.shared k

theorem pipe_inv_start : PipeInv [] (pipeStart : System ι Pipe PipeTask) where
  bounded := pipe_create_bounded
  stream := by
    change [] = [] ++ pipeCreate.contents
    rw [pipe_create_empty, List.append_nil]
  exclusive := ⟨fun _ holding => absurd holding id, fun _ _ holding => absurd holding id⟩
  copying := nofun

theorem accepted_bytes_snoc (trace : List (ι × PipeEvent)) (i : ι) (event : PipeEvent) :
    acceptedBytes (trace ++ [(i, event)]) = acceptedBytes trace ++ event.acceptedByte.toList := by
  cases h : event.acceptedByte <;> simp [acceptedBytes, h]

theorem delivered_bytes_snoc (trace : List (ι × PipeEvent)) (i : ι) (event : PipeEvent) :
    deliveredBytes (trace ++ [(i, event)]) =
      deliveredBytes trace ++ event.deliveredByte.toList := by
  cases h : event.deliveredByte <;> simp [deliveredBytes, h]

variable {s : System ι Pipe PipeTask} {trace : List (ι × PipeEvent)}

/-- A process other than the one that moves keeps what it knows about its copying. -/
theorem copying_kept {i j : ι} {k : Int}
    (exclusive : Exclusive (fun pipe => pipe.locked = true) PipeTask.holdsLock s)
    (moves : PipeMoves s.shared (s.thread i) event pipe task) (other : j ≠ i)
    (reading : s.thread j = .readCopy len k) (copying : Copying s.shared k) : Copying pipe k := by
  have holding : (s.thread j).holdsLock := by
    rw [reading]
    trivial
  have outside : ¬ (s.thread i).holdsLock := fun held => other (exclusive.unique j i holding held)
  rcases outside_lock outside moves with ⟨same, _⟩ | ⟨free, _, _⟩
  · rwa [same]
  · rw [exclusive.taken j holding] at free
    contradiction

variable [DecidableEq ι]

theorem pipe_inv_step {i : ι} (inv : PipeInv trace s)
    (moves : PipeMoves s.shared (s.thread i) event pipe task) :
    PipeInv (trace ++ [(i, event)]) (s.move i pipe task) := by
  have change := queue_change inv.bounded moves
  constructor
  · exact change.bounded inv.bounded
  · rw [accepted_bytes_snoc, delivered_bytes_snoc, inv.stream, List.append_assoc,
      change.stream inv.bounded, List.append_assoc]
    rfl
  · exact exclusive_move pipe_guards inv.exclusive moves
  · intro j len k reading
    by_cases same : j = i
    · subst same
      rw [move_thread_self] at reading
      subst reading
      exact copying_step inv.bounded (fun len' k' was => inv.copying j len' k' was) moves
    · rw [move_thread_of_ne s same] at reading
      exact copying_kept inv.exclusive moves same reading (inv.copying j len k reading)

theorem pipe_inv_run (run : PipeRun trace s) : PipeInv trace s := by
  induction run with
  | first => exact pipe_inv_start
  | step _ moves inv => exact pipe_inv_step inv moves

/-- A pipe is a first-in first-out stream. However the calls of any number of processes
interleave, at most `PIPE_SIZE` bytes are held; the accepted bytes are those delivered, in
order, followed by those still held; and a read of a positive length that returns zero found
the pipe empty and its write end closed. -/
theorem pipe_runs_stream {trace : List (ι × PipeEvent)} {s : System ι Pipe PipeTask}
    (run : PipeRun trace s) :
    (s.shared.nwrite + 2 ^ 64 - s.shared.nread) % 2 ^ 64 ≤ PIPE_SIZE ∧
    deliveredBytes trace <+: acceptedBytes trace ∧
    acceptedBytes trace = deliveredBytes trace ++ s.shared.contents ∧
    ∀ i len pipe task, 0 < len →
      PipeMoves s.shared (s.thread i) (.readReturned len 0) pipe task →
      s.shared.nread = s.shared.nwrite ∧ s.shared.writeOpen = false := by
  have inv := pipe_inv_run run
  constructor
  · exact inv.bounded.held_le
  constructor
  · rw [inv.stream]
    exact List.prefix_append ..
  constructor
  · exact inv.stream
  · intro i len pipe task positive moves
    exact read_returned_zero inv.bounded (inv.copying i) positive moves

end

/-- One process writes a byte and another takes it. -/
theorem one_byte_run : ∃ (trace : List (Bool × PipeEvent)) (s : System Bool Pipe PipeTask),
    PipeRun trace s ∧ acceptedBytes trace = [7] ∧ deliveredBytes trace = [7] := by
  have written : PipeMoves pipeCreate .idle .silent pipeCreate
      (.writeCall O_WRONLY (fun _ => 7) 1) := .call (by decide : 1 < SIZE_T)
  have taken : ∀ pipe, PipeMoves pipe .idle .silent pipe (.readCall O_RDONLY 1) :=
    fun _ => .call (by decide : 1 < SIZE_T)
  refine ⟨_, _, .step (i := false) (.step (i := false) (.step (i := false) (.step (i := false)
    (.step (i := true) (.step (i := true) (.step (i := true) (.step (i := true)
    (.step (i := true) .first written) (.step rfl)) (.step rfl)) (.step rfl)) (.step rfl))
    (taken _)) (.step rfl)) (.step rfl)) (.step rfl), rfl, rfl⟩

/-- In that run the byte is the whole stream. -/
theorem one_byte_streams : ∃ (trace : List (Bool × PipeEvent)) (s : System Bool Pipe PipeTask),
    PipeRun trace s ∧ acceptedBytes trace = [7] ∧
      deliveredBytes trace <+: acceptedBytes trace ∧ s.shared.contents = [] := by
  obtain ⟨trace, s, run, accepted, delivered⟩ := one_byte_run
  have streams := pipe_runs_stream run
  have held := streams.2.2.1
  rw [accepted, delivered, List.self_eq_append_right] at held
  exact ⟨trace, s, run, accepted, streams.2.1, held⟩

end Mftt
