import Mftt.Bitset
import Mftt.Scheduling
import Mathlib.Data.Finset.Basic

/-!
# The identity of processes

A process is an object at an address. Its number is recorded in the object, as a bit of
`proc_bitmap` and as an entry of `proc_table`, and the object is on the process list, on the
children list of its parent and possibly in `last_scheduled_proc`. The routines below are those of
`Mftt.Scheduling` again, now with all these records: `proc_alloc` inside `do_fork`, `do_exit`,
`do_wait` and the scheduler loop. Between two of them the hart may be taken from the current
process.
-/

namespace Mftt

abbrev MAX_PROC : Nat := 32

/-- The fields of `proc_t` that identity needs. -/
structure ProcObject where
  pid : Nat := 0
  status : ProcStatus := {}
  parent : Nat := 0
  children : List Nat := []
  locked : Bool := false

/-- The process objects by address, which of them are allocated, the process list, the bitmap,
the table, `last_scheduled_proc` and `mycpu()->proc`. -/
structure ProcTable where
  object : Nat → ProcObject
  allocated : Finset Nat
  procs : List Nat
  bitmap : Words
  table : Nat → Nat
  last : Nat
  current : Nat

namespace ProcTable

/-- Change one process. -/
def modify (t : ProcTable) (address : Nat) (change : ProcObject → ProcObject) : ProcTable :=
  { t with object := Function.update t.object address (change (t.object address)) }

/-- Change the status of one process. -/
def setStatus (t : ProcTable) (address : Nat) (change : ProcStatus → ProcStatus) : ProcTable :=
  t.modify address fun proc => { proc with status := change proc.status }

/-- Return with the lock of a process held. -/
def leaveLocked (t : ProcTable) (address : Nat) : ProcTable :=
  t.modify address fun proc => { proc with locked := true }

/-- `spinlock_acquire(&proc->lock)` on the only hart. -/
def acquire (t : ProcTable) (address : Nat) : Except Fault Unit :=
  if (t.object address).locked then kpanic "Acquired." else .ok ()

/-- What the scheduler reads, with the processes known by their addresses. -/
def sched (t : ProcTable) : Sched where
  procs := t.procs
  task address :=
    { status := (t.object address).status, locked := (t.object address).locked }
  last := t.last
  current := t.current
  hart := .loop

/-- The body of the loop of `kernel_main`, up to the context switch. -/
def schedule (t : ProcTable) : Except Fault ProcTable :=
  t.sched.scheduler >>= fun found =>
    match found with
    | none => .ok t
    | some address => .ok { t.setStatus address .dispatch with last := address, current := address }

/-- The current process is made ready and yields: the timer interrupt, `sched_yield`. -/
def preempt (t : ProcTable) : Except Fault ProcTable :=
  t.acquire t.current >>= fun _ => .ok { t.setStatus t.current .preempt with current := 0 }

/-- `proc_alloc` up to the page directory, where `kmalloc` returned `address`. Without a free
number there is no process. -/
def procAlloc (t : ProcTable) (address : Nat) : Option (Nat × ProcTable) :=
  let (pid, bitmap) := setFirstUnsetBit t.bitmap 0
    (MAX_PROC / 32 + if MAX_PROC % 32 ≠ 0 then 1 else 0) 0
  if pid = 0xFFFFFFFFFFFFFFFF then none
  else
    some (pid, { t with
      object := Function.update t.object address { pid := pid }
      allocated := insert address t.allocated
      procs := address :: t.procs
      bitmap := bitmap
      table := Function.update t.table pid address })

/-- `do_fork`, up to the context switch; `pageDir` says whether there was a page for the page
directory. -/
def doFork (t : ProcTable) (parent address : Nat) (pageDir : Bool) :
    Except Fault (Int × ProcTable) :=
  t.acquire parent >>= fun _ =>
    let t := t.setStatus parent .forked
    match t.procAlloc address with
    | none => .ok (-1, t.leaveLocked parent)
    | some (pid, t) =>
      if pageDir then
        let t := t.modify address fun proc =>
          { proc with parent := parent, status := (t.object parent).status.forked }
        let t := t.modify parent fun proc => { proc with children := address :: proc.children }
        .ok (pid, { t with current := 0 })
      else .ok (-1, t.leaveLocked parent)

/-- `do_exit`, up to the context switch. With a child the walk that relinks the children runs
over to the list of the parent and does not return. -/
def doExit (t : ProcTable) (address : Nat) : Except Fault ProcTable :=
  t.acquire address >>= fun _ =>
    if (t.object address).pid = 1 then kpanic "Init process cannot exit."
    else
      let parent := (t.object address).parent
      assert (parent ≠ 0) "Proc must have a parent." >>= fun _ =>
        if parent = address then kpanic "Acquired."
        else
          t.acquire parent >>= fun _ =>
            if (t.object address).children ≠ [] then .error .unfinished
            else
              let t := (t.setStatus address fun _ => { stop := true }).setStatus parent .wake
              .ok { t with current := 0 }

/-- The walk of `do_wait` over the children, to a stopped one that is waited for. -/
def stoppedChild (t : ProcTable) (waitfor : Int) : List Nat → Except Fault (Option Nat)
  | [] => .ok none
  | child :: rest =>
    t.acquire child >>= fun _ =>
      if (t.object child).status = { stop := true } ∧
          (waitfor = -1 ∨ waitfor = (t.object child).pid) then .ok (some child)
      else t.stoppedChild waitfor rest

/-- `list_del(&child->child_list)`. -/
def dropChild (t : ProcTable) (address child : Nat) : ProcTable :=
  t.modify address fun proc => { proc with children := proc.children.erase child }

/-- A stopped child leaves the lists, is freed, and its number is given back. -/
def reap (t : ProcTable) (address child : Nat) : Except Fault (Nat × ProcTable) :=
  let t := t.dropChild address child
  let t := { t with procs := t.procs.erase child }
  let pid := (t.object child).pid
  assert (child ∈ t.allocated) "Memory block not inuse." >>= fun _ =>
    .ok (pid, { t with
      allocated := t.allocated.erase child
      bitmap := clearBit t.bitmap 0 pid
      table := Function.update t.table pid 0 })

/-- `do_wait`. A process that sleeps in it has no result yet; it walks over its children again
when it is woken, which is another step of the same kind. -/
def doWait (t : ProcTable) (address : Nat) (waitfor : Int) (noHang : Bool) :
    Except Fault (Option Int × ProcTable) :=
  t.acquire address >>= fun _ =>
    t.stoppedChild waitfor (t.object address).children >>= fun found =>
      match found with
      | some child => t.reap address child >>= fun (pid, t) => .ok (some pid, t)
      | none =>
        if noHang then .ok (some 0, t.leaveLocked address)
        else if (t.object address).children = [] then .ok (some (-1), t)
        else .ok (none, { t.setStatus address .park with current := 0 })

end ProcTable

/-- A call. -/
inductive ProcEvent where
  | schedule
  | preempt
  | fork (address : Nat) (pageDir : Bool)
  | exit
  | wait (waitfor : Int) (noHang : Bool)

/-- What one call does. The scheduler is called in its loop, the others by the current
process; `kmalloc` returns an object that is not allocated. -/
inductive ProcStep : ProcEvent → ProcTable → ProcTable → Prop where
  | schedule {t t' : ProcTable} (idle : t.current = 0) (call : t.schedule = .ok t') :
      ProcStep .schedule t t'
  | preempt {t t' : ProcTable} (busy : t.current ≠ 0) (call : t.preempt = .ok t') :
      ProcStep .preempt t t'
  | fork {t t' : ProcTable} {address : Nat} {pageDir : Bool} {value : Int}
      (busy : t.current ≠ 0) (valid : address ≠ 0) (fresh : address ∉ t.allocated)
      (call : t.doFork t.current address pageDir = .ok (value, t')) :
      ProcStep (.fork address pageDir) t t'
  | exit {t t' : ProcTable} (busy : t.current ≠ 0) (call : t.doExit t.current = .ok t') :
      ProcStep .exit t t'
  | wait {t t' : ProcTable} {waitfor : Int} {noHang : Bool} {value : Option Int}
      (busy : t.current ≠ 0) (call : t.doWait t.current waitfor noHang = .ok (value, t')) :
      ProcStep (.wait waitfor noHang) t t'

/-- After `init_proc`: number 0 is taken, and `init` is at an address. -/
def ProcTable.boot (init : Nat) : ProcTable where
  object address :=
    if address = init then { pid := 1, status := { ready := true, normal := true } } else {}
  allocated := {init}
  procs := [init]
  bitmap := setBit (setBit (fun _ => 0#32) 0 0) 0 1
  table pid := if pid = 1 then init else 0
  last := 0
  current := 0

/-- The states reached by any sequence of calls. -/
inductive ProcRun (init : Nat) : ProcTable → Prop where
  | boot : ProcRun init (.boot init)
  | step {t t' : ProcTable} {event : ProcEvent} (run : ProcRun init t)
      (moves : ProcStep event t t') : ProcRun init t'

end Mftt
