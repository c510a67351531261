import Mathlib.Data.List.Basic
import Mathlib.Logic.Function.Basic
import Mftt.CyclicOrder
import Mftt.Fault

/-!
# Processes on one hart

What the scheduler loop of `kernel_main`, `scheduler`, the timer interrupt, `sleep`,
`wakeup`, `sched_yield`, `do_fork`, `do_execve`, `do_exit` and `do_wait` do to the status of
the processes. A process is known by its number, and number 0 stands for NULL. The hart is
at one of the places where the code of one process, or of the loop, gives way to another.

A lock of a process is in the state only where a routine returns without releasing it;
between the acquire and the release of one routine interrupts are off, and the routine is
one step here. Memory, files and the outcome of allocations are not described: a routine
whose path depends on them takes the outcome as an argument.
-/

namespace Mftt

/-- The bits of `proc_t.status` that the kernel reads. -/
structure ProcStatus where
  running : Bool := false
  ready : Bool := false
  normal : Bool := false
  stop : Bool := false
  waiting : Bool := false
  deriving DecidableEq, Repr

namespace ProcStatus

/-- `PROC_RUNNABLE` set and `PROC_STATUS_RUNNING` clear. -/
def runnable (status : ProcStatus) : Bool :=
  status.ready && status.normal && !status.running

/-- Clear `RUNNING` and set `READY`. -/
def preempt (status : ProcStatus) : ProcStatus :=
  { status with running := false, ready := true }

/-- Clear `RUNNING` and set `READY` if `RUNNING` was set. -/
def forked (status : ProcStatus) : ProcStatus :=
  if status.running then status.preempt else status

/-- Clear `READY` and set `RUNNING`. -/
def dispatch (status : ProcStatus) : ProcStatus :=
  { status with ready := false, running := true }

/-- Clear `RUNNING` and `READY` and set `WAITING`. -/
def park (status : ProcStatus) : ProcStatus :=
  { status with running := false, ready := false, waiting := true }

/-- Clear `WAITING` and set `READY` and `NORMAL`. -/
def wake (status : ProcStatus) : ProcStatus :=
  { status with waiting := false, ready := true, normal := true }

end ProcStatus

/-- What a process can wait on: the tick counter, a process, or another object. -/
inductive Chan where
  | ticks
  | proc (pid : Nat)
  | object (address : Nat)
  deriving DecidableEq, Repr

/-- The fields of `proc_t` that scheduling uses. -/
structure Task where
  status : ProcStatus := {}
  waitingChan : Option Chan := none
  parent : Nat := 0
  locked : Bool := false
  deriving DecidableEq, Repr

/-- Where the hart is: in the loop of `kernel_main`; in the loop after the lock of the chosen
process was released and before the context switch to it; in the kernel on behalf of a
process; in `yield` before the context switch to the loop; in user code. At `lost` the saved
context of a process has been overwritten by one of the loop. -/
inductive Hart where
  | loop
  | leaving (pid : Nat)
  | kernel (pid : Nat)
  | switching (pid : Nat)
  | user (pid : Nat)
  | lost
  deriving DecidableEq, Repr

/-- The process list in its order, the processes, `last_scheduled_proc`, `mycpu()->proc` and
the place of the hart. -/
structure Sched where
  procs : List Nat
  task : Nat → Task
  last : Nat
  current : Nat
  hart : Hart

namespace Sched

/-- Change one process. -/
def modify (s : Sched) (pid : Nat) (change : Task → Task) : Sched :=
  { s with task := Function.update s.task pid (change (s.task pid)) }

/-- Change the status of one process. -/
def setStatus (s : Sched) (pid : Nat) (change : ProcStatus → ProcStatus) : Sched :=
  s.modify pid fun task => { task with status := change task.status }

/-- Return with the lock of a process held. -/
def leaveLocked (s : Sched) (pid : Nat) : Sched :=
  s.modify pid fun task => { task with locked := true }

/-- `spinlock_acquire(&proc->lock)` on the only hart. -/
def acquire (s : Sched) (pid : Nat) : Except Fault Unit :=
  if (s.task pid).locked then kpanic "Acquired." else .ok ()

/-- The children of a process. -/
def children (s : Sched) (pid : Nat) : List Nat :=
  s.procs.filter fun child => (s.task child).parent == pid

/-- `yield`, up to the context switch. Taken in the loop it would save the context of the
loop over that of the chosen process. -/
def yield (s : Sched) : Except Fault Sched :=
  assert (s.current ≠ 0) "Proc must be valid." >>= fun _ =>
    match s.hart with
    | .leaving _ => .ok { s with hart := .lost }
    | _ => .ok { s with hart := .switching s.current }

/-! ## The scheduler -/

/-- The first process of a list that could be scheduled. -/
def pick (s : Sched) : List Nat → Except Fault (Option Nat)
  | [] => .ok none
  | pid :: rest =>
    s.acquire pid >>= fun _ =>
      if (s.task pid).status.runnable then .ok (some pid) else pick s rest

/-- `scheduler`: the processes after the last scheduled one, then those up to it. A process
that left the list has no successor to follow. -/
def scheduler (s : Sched) : Except Fault (Option Nat) :=
  if s.last = 0 then s.pick s.procs
  else if s.last ∈ s.procs then
    s.pick (CyclicOrder.behind s.last s.procs) >>= fun found =>
      match found with
      | some pid => .ok (some pid)
      | none => s.pick (CyclicOrder.upTo s.last s.procs)
  else .error .nullPointer

/-- The body of the loop of `kernel_main`, up to the context switch. -/
def loopBody (s : Sched) : Except Fault Sched :=
  s.scheduler >>= fun found =>
    match found with
    | none => .ok { s with current := 0 }
    | some pid =>
      let s := { s with last := pid }
      (if s.current ≠ 0 ∧ s.current ≠ pid then
        s.acquire s.current >>= fun _ => .ok (s.setStatus s.current .preempt)
      else .ok s) >>= fun s =>
        .ok { s.setStatus pid .dispatch with current := pid, hart := .leaving pid }

/-! ## Waiting and waking -/

/-- One turn of the loop of `wakeup`. -/
def wakeupTurn (chan : Chan) (s : Sched) (pid : Nat) : Except Fault Sched :=
  s.acquire pid >>= fun _ =>
    if (s.task pid).status.waiting ∧ (s.task pid).waitingChan = some chan then
      .ok (s.setStatus pid .wake)
    else .ok s

/-- `wakeup`. -/
def wakeup (s : Sched) (chan : Chan) : Except Fault Sched :=
  s.procs.foldlM (wakeupTurn chan) s

/-- `sleep` with the lock of the process held, up to the context switch. -/
def park (s : Sched) (pid : Nat) (chan : Chan) : Except Fault Sched :=
  (s.modify pid fun task =>
    { task with waitingChan := some chan, status := task.status.park }).yield

/-- `sleep` with another lock. -/
def sleep (s : Sched) (pid : Nat) (chan : Chan) : Except Fault Sched :=
  s.acquire pid >>= fun _ => s.park pid chan

/-- The timer interrupt: `timer_tick`, then `yield` if a process is running. -/
def timerInterrupt (s : Sched) : Except Fault Sched :=
  s.wakeup .ticks >>= fun s =>
    if s.current ≠ 0 ∧ (s.task s.current).status.running then
      s.acquire s.current >>= fun _ => (s.setStatus s.current .preempt).yield
    else .ok s

/-- `sys_sched_yield`. -/
def schedYield (s : Sched) (pid : Nat) : Except Fault Sched :=
  (s.setStatus pid .preempt).yield

/-! ## Fork, exec, exit, wait -/

/-- How `proc_alloc` ends: with a process, without a free number, or without a page for the
page directory, when the process stays on the list. -/
inductive Allocated where
  | child (pid : Nat)
  | noPid
  | noPageDir (pid : Nat)

/-- `do_fork`, up to the context switch. -/
def doFork (s : Sched) (parent : Nat) (allocated : Allocated) : Except Fault Sched :=
  s.acquire parent >>= fun _ =>
    let s := s.setStatus parent .forked
    match allocated with
    | .noPid => .ok (s.leaveLocked parent)
    | .noPageDir pid =>
      .ok (({ s with procs := pid :: s.procs }.modify pid fun _ => {}).leaveLocked parent)
    | .child pid =>
      ({ s with procs := pid :: s.procs }.modify pid fun _ =>
        { status := (s.task parent).status.forked
          waitingChan := (s.task parent).waitingChan
          parent := parent }).yield

/-- How `do_execve` ends: with the new image loaded, before it takes the lock, or without
pages for the stack. -/
inductive Executed where
  | loaded
  | noFile
  | noStack

/-- `do_execve`. -/
def doExecve (s : Sched) (pid : Nat) : Executed → Except Fault Sched
  | .noFile => .ok s
  | .noStack => s.acquire pid >>= fun _ => .ok (s.leaveLocked pid)
  | .loaded =>
    s.acquire pid >>= fun _ => .ok (s.setStatus pid fun _ => { ready := true, normal := true })

/-- `do_exit`, up to the context switch. With a child the walk that relinks the children
runs over to the list of the parent and does not return. -/
def doExit (s : Sched) (pid : Nat) : Except Fault Sched :=
  s.acquire pid >>= fun _ =>
    if pid = 1 then kpanic "Init process cannot exit."
    else
      let parent := (s.task pid).parent
      assert (parent ≠ 0) "Proc must have a parent." >>= fun _ =>
        if parent = pid then kpanic "Acquired."
        else
          s.acquire parent >>= fun _ =>
            if s.children pid ≠ [] then .error .unfinished
            else ((s.setStatus pid fun _ => { stop := true }).setStatus parent .wake).yield

/-- How `do_wait` ends: with a stopped child, with none under `WNOHANG`, without a child, or
in `sleep`. -/
inductive Waited where
  | reaped (child : Nat)
  | noHang
  | noChild
  | sleeps

/-- `do_wait`. -/
def doWait (s : Sched) (pid : Nat) (waited : Waited) : Except Fault Sched :=
  s.acquire pid >>= fun _ =>
    match waited with
    | .reaped child =>
      s.acquire child >>= fun _ => .ok { s with procs := s.procs.erase child }
    | .noHang => (s.children pid).forM s.acquire >>= fun _ => .ok (s.leaveLocked pid)
    | .noChild => .ok s
    | .sleeps => (s.children pid).forM s.acquire >>= fun _ => s.park pid (.proc pid)

end Sched

/-! ## Steps of the hart -/

/-- What the hart does next. -/
inductive SchedEvent where
  | schedule
  | enter
  | switch
  | timer
  | external (chan : Chan)
  | trap
  | resume
  | sleep (chan : Chan)
  | wakeup (chan : Chan)
  | schedYield
  | fork (allocated : Sched.Allocated)
  | execve (executed : Sched.Executed)
  | exit
  | wait (waited : Sched.Waited)

/-- A number that `proc_alloc` can give. -/
def Sched.Allocated.Fresh (procs : List Nat) : Sched.Allocated → Prop
  | .child pid => pid ≠ 0 ∧ pid ∉ procs
  | .noPid => True
  | .noPageDir pid => pid ≠ 0 ∧ pid ∉ procs

/-- An end that `do_wait` can have for a process. -/
def Sched.Waited.Possible (s : Sched) (pid : Nat) : Sched.Waited → Prop
  | .reaped child => child ∈ s.children pid ∧ (s.task child).status = { stop := true }
  | .noHang => True
  | .noChild => s.children pid = []
  | .sleeps => s.children pid ≠ []

/-- One step. Interrupts can arrive anywhere but where a routine has them off; a process
switched to clears its waiting channel, which is the rest of its `sleep`. -/
inductive SchedStep : Sched → SchedEvent → Sched → Prop where
  | schedule {s s' : Sched} (place : s.hart = .loop) (call : s.loopBody = .ok s') :
      SchedStep s .schedule s'
  | enter {s : Sched} {pid : Nat} (place : s.hart = .leaving pid) :
      SchedStep s .enter { s.modify pid fun task => { task with waitingChan := none } with
        hart := .kernel pid }
  | switch {s : Sched} {pid : Nat} (place : s.hart = .switching pid) :
      SchedStep s .switch { s with current := 0, hart := .loop }
  | timer {s s' : Sched} (place : s.hart ≠ .lost) (call : s.timerInterrupt = .ok s') :
      SchedStep s .timer s'
  | external {s s' : Sched} {chan : Chan} (place : s.hart ≠ .lost)
      (call : s.wakeup chan = .ok s') : SchedStep s (.external chan) s'
  | trap {s : Sched} {pid : Nat} (place : s.hart = .user pid) :
      SchedStep s .trap { s with hart := .kernel pid }
  | resume {s : Sched} {pid : Nat} (place : s.hart = .kernel pid) :
      SchedStep s .resume { s with hart := .user s.current }
  | sleep {s s' : Sched} {pid : Nat} {chan : Chan} (place : s.hart = .kernel pid)
      (call : s.sleep pid chan = .ok s') : SchedStep s (.sleep chan) s'
  | wakeup {s s' : Sched} {pid : Nat} {chan : Chan} (place : s.hart = .kernel pid)
      (call : s.wakeup chan = .ok s') : SchedStep s (.wakeup chan) s'
  | schedYield {s s' : Sched} {pid : Nat} (place : s.hart = .kernel pid)
      (call : s.schedYield pid = .ok s') : SchedStep s .schedYield s'
  | fork {s s' : Sched} {pid : Nat} {allocated : Sched.Allocated}
      (place : s.hart = .kernel pid) (fresh : allocated.Fresh s.procs)
      (call : s.doFork pid allocated = .ok s') : SchedStep s (.fork allocated) s'
  | execve {s s' : Sched} {pid : Nat} {executed : Sched.Executed}
      (place : s.hart = .kernel pid) (call : s.doExecve pid executed = .ok s') :
      SchedStep s (.execve executed) s'
  | exit {s s' : Sched} {pid : Nat} (place : s.hart = .kernel pid)
      (call : s.doExit pid = .ok s') : SchedStep s .exit s'
  | wait {s s' : Sched} {pid : Nat} {waited : Sched.Waited} (place : s.hart = .kernel pid)
      (possible : waited.Possible s pid) (call : s.doWait pid waited = .ok s') :
      SchedStep s (.wait waited) s'

/-- The state in which the scheduler loop is entered: `init` is ready. -/
def Sched.boot : Sched where
  procs := [1]
  task pid := if pid = 1 then { status := { ready := true, normal := true } } else {}
  last := 0
  current := 0
  hart := .loop

/-- The states reached by steps that all meet a condition. -/
inductive SchedRun (allowed : Sched → SchedEvent → Prop) : Sched → Prop where
  | boot : SchedRun allowed .boot
  | step {s s' : Sched} {event : SchedEvent} (run : SchedRun allowed s)
      (meets : allowed s event) (moves : SchedStep s event s') : SchedRun allowed s'

end Mftt
