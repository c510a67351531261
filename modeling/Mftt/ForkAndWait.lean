import Mftt.ProcessIdentity

/-!
# Failed forks, and waiting for children

A `do_fork` that fails returns with the lock of the parent held and the parent no longer running;
for want of a page directory it also leaves the new process in all tables. `do_wait` decides
between its outcomes by one walk over the children, but whether it has anybody to wait for it
decides by whether it has children at all, not by whether one of them is waited for.

The status with which a process exits is kept beside the process table. What is delivered and
what is not is compared over whole runs.
-/

namespace Mftt

open Function

variable {t t' : ProcTable} {address : Nat}

variable {parent pid : Nat} {pageDir noHang : Bool} {waitfor : Int} {value : Option Int}

namespace ProcTable

variable {child : Nat}

theorem acquire_eq_ok {value : Unit} :
    t.acquire address = .ok value ↔ (t.object address).locked = false := by
  cases held : (t.object address).locked <;> simp [acquire, held, kpanic]

/-! ## A fork that fails -/

/-- A number is free. -/
def HasFreePid (t : ProcTable) : Prop := ∃ pid < MAX_PROC, checkBit t.bitmap 0 pid = false

/-- `proc_alloc` fails at its first step exactly if all numbers are taken. -/
theorem proc_alloc_eq_none_iff : t.procAlloc address = none ↔ ¬ t.HasFreePid := by
  have words : MAX_PROC / 32 + (if MAX_PROC % 32 ≠ 0 then 1 else 0) = 1 := rfl
  simp only [procAlloc, words]
  rcases set_first_unset_bit_spec t.bitmap 0 1 0 with
    ⟨r, first, -, below, clear, -, -⟩ | ⟨none, full, -⟩
  · have small : r < MAX_PROC := below
    have free : t.HasFreePid := ⟨r, small, clear⟩
    rw [if_neg (by simp only [MAX_PROC] at small; omega)]
    simp [free]
  · rw [none]
    refine iff_of_true rfl ?_
    rintro ⟨pid, small, clear⟩
    rw [full pid (Nat.zero_le _) small] at clear
    cases clear

/-- The records that a failed call has to leave alone: the bitmap, the table, the process list,
the allocated objects, and the status and the locks of the processes. -/
structure Unchanged (t t' : ProcTable) : Prop where
  bitmap : t'.bitmap = t.bitmap
  table : t'.table = t.table
  procs : t'.procs = t.procs
  allocated : t'.allocated = t.allocated
  status : ∀ address, (t'.object address).status = (t.object address).status
  locks : ∀ address, (t'.object address).locked = (t.object address).locked

/-- Whatever the call has done, it leaves the lock of the parent held when it fails. -/
theorem failed_fork_locked (fails : t.doFork parent address pageDir = .ok (-1, t')) :
    (t.object parent).locked = false ∧ (t'.object parent).locked = true ∧
      ¬ (t.HasFreePid ∧ pageDir = true) := by
  obtain ⟨_, free, goes⟩ := bind_eq_ok.mp fails
  have unlocked := acquire_eq_ok.mp free
  have same : (t.setStatus parent .forked).HasFreePid ↔ t.HasFreePid := Iff.rfl
  cases allocates : (t.setStatus parent .forked).procAlloc address with
  | none =>
    simp only [allocates] at goes
    cases goes
    exact ⟨unlocked, by rw [leaveLocked, modify_self],
      fun both => proc_alloc_eq_none_iff.mp allocates (same.mpr both.1)⟩
  | some made =>
    obtain ⟨pid, made⟩ := made
    simp only [allocates] at goes
    cases pageDir with
    | true =>
      have number : (pid : Int) = -1 := congrArg Prod.fst (Except.ok.inj goes)
      omega
    | false =>
      cases goes
      exact ⟨unlocked, by rw [leaveLocked, modify_self], fun both => by cases both.2⟩

/-- A call of `do_fork` that can fail does: it changes nothing when it returns -1 exactly if it
does not return -1, because it does not return at all or a number and a page directory are
there. -/
theorem failed_fork_unchanged_iff (t : ProcTable) (parent address : Nat) (pageDir : Bool) :
    (∀ t', t.doFork parent address pageDir = .ok (-1, t') → Unchanged t t') ↔
      (t.object parent).locked = true ∨ (t.HasFreePid ∧ pageDir = true) := by
  constructor
  · intro unchanged
    by_contra neither
    obtain ⟨unlocked, missing⟩ := not_or.mp neither
    have acquired : t.acquire parent = .ok () := acquire_eq_ok.mpr (by simpa using unlocked)
    obtain ⟨t', fails⟩ : ∃ t', t.doFork parent address pageDir = .ok (-1, t') := by
      rw [doFork, acquired, bind_ok]
      dsimp only
      cases allocates : (t.setStatus parent .forked).procAlloc address with
      | none => exact ⟨_, rfl⟩
      | some made =>
        have free : t.HasFreePid := by
          by_contra full
          have none : (t.setStatus parent .forked).procAlloc address = none :=
            proc_alloc_eq_none_iff.mpr full
          rw [none] at allocates
          cases allocates
        have noDir : pageDir = false := by simpa [free] using missing
        subst noDir
        exact ⟨_, rfl⟩
    obtain ⟨before, after, -⟩ := failed_fork_locked fails
    rw [(unchanged t' fails).locks parent, before] at after
    cases after
  · rintro (locked | both) t' fails
    · rw [(failed_fork_locked fails).1] at locked
      cases locked
    · exact absurd both (failed_fork_locked fails).2.2

/-- Process 10 is the only one and running; there is no page for the directory of its child. -/
def lonely : ProcTable :=
  { (boot 10).setStatus 10 .dispatch with last := 10, current := 10 }

/-- The failed fork has used up number 2 and left the child on the list, and the lock held. -/
theorem fork_without_page_directory : ∃ t', lonely.doFork 10 20 false = .ok (-1, t') ∧
    t'.procs = [20, 10] ∧ checkBit lonely.bitmap 0 2 = false ∧ checkBit t'.bitmap 0 2 = true ∧
    t'.table 2 = 20 ∧ (t'.object 10).locked = true ∧ ¬ Unchanged lonely t' := by
  refine ⟨_, rfl, rfl, by decide, by decide, rfl, rfl, fun unchanged => ?_⟩
  have lists := unchanged.procs
  cases lists

/-! ## One call of do_wait -/

/-- A child that `waitfor` names. -/
def Awaited (t : ProcTable) (waitfor : Int) (child : Nat) : Prop :=
  waitfor = -1 ∨ waitfor = (t.object child).pid

/-- A process that has exited. -/
def Stopped (t : ProcTable) (child : Nat) : Prop := (t.object child).status = { stop := true }

instance (t : ProcTable) (waitfor : Int) (child : Nat) : Decidable (t.Awaited waitfor child) :=
  inferInstanceAs (Decidable (_ ∨ _))

instance (t : ProcTable) (child : Nat) : Decidable (t.Stopped child) :=
  inferInstanceAs (Decidable (_ = _))

/-- The child whose status `do_wait` stores, if there is one. -/
def reaped (t : ProcTable) (address : Nat) (waitfor : Int) : Option Nat :=
  match t.stoppedChild waitfor (t.object address).children with
  | .ok found => found
  | .error _ => none

/-- `do_wait` with what it stores in `*status`, where `exitStatus` is the field of that name read
as an `int`: it holds the `int` that the process exited with, extended to 64 bits. -/
def doWaitStatus (t : ProcTable) (exitStatus : Nat → Int) (address : Nat) (waitfor : Int)
    (noHang : Bool) : Except Fault (Option Int × Option Int × ProcTable) :=
  t.doWait address waitfor noHang >>= fun (value, t') =>
    .ok (value, (t.reaped address waitfor).map exitStatus, t')

/-- The table without a child. -/
def without (t : ProcTable) (address child : Nat) : ProcTable :=
  { t.dropChild address child with
    procs := t.procs.erase child
    allocated := t.allocated.erase child
    bitmap := clearBit t.bitmap 0 (t.object child).pid
    table := update t.table (t.object child).pid 0 }

/-- The outcome that a call should have: a stopped child that is waited for is delivered and
removed; otherwise the result tells whether there is anybody to wait for, and with `WNOHANG` the
process does not sleep. A process that sleeps has no result yet. -/
def WaitMeets (t : ProcTable) (exitStatus : Nat → Int) (address : Nat) (waitfor : Int)
    (noHang : Bool) (outcome : Option Int × Option Int × ProcTable) : Prop :=
  (∃ child ∈ (t.object address).children, t.Awaited waitfor child ∧ t.Stopped child ∧
    outcome = (some ↑(t.object child).pid, some (exitStatus child), t.without address child)) ∨
  ((∀ child ∈ (t.object address).children, t.Awaited waitfor child → ¬ t.Stopped child) ∧
    outcome.1 = if ∀ child ∈ (t.object address).children, ¬ t.Awaited waitfor child then some (-1)
      else if noHang then some 0 else none)

/-- The walk finds the first child that is stopped and waited for. -/
theorem stopped_child_eq {children : List Nat}
    (unlocked : ∀ child ∈ children, (t.object child).locked = false) :
    t.stoppedChild waitfor children =
      .ok (children.find? fun child => t.Stopped child ∧ t.Awaited waitfor child) := by
  induction children with
  | nil => rfl
  | cons first rest ih =>
    have free : t.acquire first = .ok () := acquire_eq_ok.mpr (unlocked first List.mem_cons_self)
    have later := ih fun child inside => unlocked child (List.mem_cons_of_mem _ inside)
    rw [stoppedChild, free, later]
    by_cases found : t.Stopped first ∧ t.Awaited waitfor first
    · rw [List.find?_cons_of_pos (by simpa using found)]
      exact if_pos found
    · rw [List.find?_cons_of_neg (by simpa using found)]
      exact if_neg found

theorem reap_eq_ok : t.reap address child = .ok (pid, t') ↔
    child ∈ t.allocated ∧ (t.object child).pid = pid ∧ t.without address child = t' := by
  rw [reap]
  rw [(drop_child_same t address child child).1, bind_eq_ok]
  simp only [assert_eq_ok, exists_const, Except.ok.injEq, Prod.mk.injEq]
  rfl

/-- A call that finds its child, or the one that finds none. -/
theorem do_wait_status_eq (exitStatus : Nat → Int) (waitfor : Int) (noHang : Bool)
    (free : (t.object address).locked = false)
    (unlocked : ∀ child ∈ (t.object address).children, (t.object child).locked = false)
    (allocated : ∀ child ∈ (t.object address).children, child ∈ t.allocated) :
    ∃ t', t.doWaitStatus exitStatus address waitfor noHang = .ok (
      match (t.object address).children.find? fun child =>
        t.Stopped child ∧ t.Awaited waitfor child with
      | some child => (some ↑(t.object child).pid, some (exitStatus child), t.without address child)
      | none =>
        (if noHang then some 0 else if (t.object address).children = [] then some (-1) else none,
          none, t')) := by
  have acquired : t.acquire address = .ok () := acquire_eq_ok.mpr free
  rw [doWaitStatus, doWait, reaped, acquired, bind_ok, stopped_child_eq unlocked, bind_ok]
  cases found : (t.object address).children.find? fun child =>
      t.Stopped child ∧ t.Awaited waitfor child with
  | some child =>
    have reaps : t.reap address child = .ok ((t.object child).pid, t.without address child) :=
      reap_eq_ok.mpr ⟨allocated child (List.mem_of_find?_eq_some found), rfl, rfl⟩
    refine ⟨t, ?_⟩
    dsimp only
    rw [reaps]
    rfl
  | none =>
    cases noHang with
    | true => exact ⟨_, rfl⟩
    | false =>
      by_cases none : (t.object address).children = []
      · exact ⟨_, by rw [none]; rfl⟩
      · refine ⟨{ t.setStatus address .park with current := 0 }, ?_⟩
        simp only [none]
        rfl

/-- The outcome is right exactly if some child is waited for, or there is no child at all and the
call may sleep. -/
theorem wait_meets_iff {exitStatus : Nat → Int} (free : (t.object address).locked = false)
    (unlocked : ∀ child ∈ (t.object address).children, (t.object child).locked = false)
    (allocated : ∀ child ∈ (t.object address).children, child ∈ t.allocated) :
    (∃ outcome, t.doWaitStatus exitStatus address waitfor noHang = .ok outcome ∧
      t.WaitMeets exitStatus address waitfor noHang outcome) ↔
      (∃ child ∈ (t.object address).children, t.Awaited waitfor child) ∨
        ((t.object address).children = [] ∧ noHang = false) := by
  obtain ⟨t', returns⟩ := do_wait_status_eq exitStatus waitfor noHang free unlocked allocated
  rw [returns]
  simp only [Except.ok.injEq, exists_eq_left']
  cases found : (t.object address).children.find? fun child =>
      t.Stopped child ∧ t.Awaited waitfor child with
  | some child =>
    have inside := List.mem_of_find?_eq_some found
    have both := List.find?_some found
    simp only [decide_eq_true_eq] at both
    exact iff_of_true (.inl ⟨child, inside, both.2, both.1, rfl⟩) (.inl ⟨child, inside, both.2⟩)
  | none =>
    have running : ∀ child ∈ (t.object address).children,
        t.Awaited waitfor child → ¬ t.Stopped child := by
      intro child inside awaited stopped
      have other := List.find?_eq_none.mp found child inside
      simp [stopped, awaited] at other
    rw [WaitMeets, and_iff_right running]
    by_cases any : ∃ child ∈ (t.object address).children, t.Awaited waitfor child
    · have nonempty : (t.object address).children ≠ [] := by
        rintro empty
        simp [empty] at any
      have some_ : ¬ ∀ child ∈ (t.object address).children, ¬ t.Awaited waitfor child := by
        simpa using any
      simp [nonempty]
    · cases noHang <;> by_cases empty : (t.object address).children = [] <;> simp [empty]

end ProcTable

/-! ## Delivery over whole runs -/

/-- The process table with the field `exit_status` of each process, and the histories of what
processes exited with and of what calls of `do_wait` delivered, by number. -/
structure Delivery where
  table : ProcTable
  exitStatus : Nat → Int := fun _ => 0
  exited : List (Nat × Int) := []
  delivered : List (Nat × Int) := []

namespace Delivery

/-- The state after a call, which a process leaves with `ec` if it exits. A new process is
cleared. -/
def next (d : Delivery) (ec : Int) (t' : ProcTable) : ProcEvent → Delivery
  | .exit =>
    { d with
      table := t'
      exitStatus := update d.exitStatus d.table.current ec
      exited := ((d.table.object d.table.current).pid, ec) :: d.exited }
  | .wait waitfor _ =>
    { d with
      table := t'
      delivered := ((d.table.reaped d.table.current waitfor).map fun child =>
        ((d.table.object child).pid, d.exitStatus child)).toList ++ d.delivered }
  | .fork address _ =>
    { d with table := t', exitStatus := update d.exitStatus address 0 }
  | .schedule | .preempt => { d with table := t' }

/-- The number and the status of a process. -/
def record (d : Delivery) (address : Nat) : Nat × Int :=
  ((d.table.object address).pid, d.exitStatus address)

/-- What the stopped ones among some processes exited with. -/
def pendingOf (d : Delivery) (processes : List Nat) : List (Nat × Int) :=
  (processes.filter (d.table.Stopped ·)).map d.record

/-- What has not been delivered yet. -/
def pending (d : Delivery) : List (Nat × Int) := d.pendingOf d.table.procs

end Delivery

/-- The states reached by any sequence of calls, with the histories. -/
inductive DeliveryRun (init : Nat) : Delivery → Prop where
  | boot : DeliveryRun init { table := .boot init }
  | step {d : Delivery} {t' : ProcTable} {event : ProcEvent} {ec : Int} (run : DeliveryRun init d)
      (moves : ProcStep event d.table t') : DeliveryRun init (d.next ec t' event)

namespace ProcTable

/-- A stopped process has no children, and every process is on the list of its parent, so that
no parent stops before its children are reaped. -/
structure Kin (t : ProcTable) : Prop where
  identified : t.Identified
  childless : ∀ a ∈ t.procs, t.Stopped a → (t.object a).children = []
  family : ∀ a ∈ t.procs, (t.object a).parent ≠ 0 →
    (t.object a).parent ∈ t.procs ∧ a ∈ (t.object (t.object a).parent).children

theorem not_stopped_of_normal (normal : (t.object address).status.normal = true) :
    ¬ t.Stopped address := by
  intro stopped
  rw [stopped] at normal
  cases normal

/-- A process that is `NORMAL` and stays so does not count. -/
theorem set_status_stopped {change : ProcStatus → ProcStatus}
    (keeps : ∀ status, status.normal = true → (change status).normal = true)
    (normal : (t.object address).status.normal = true) (other : Nat) :
    (t.setStatus address change).Stopped other ↔ t.Stopped other := by
  by_cases same : other = address
  · subst same
    exact iff_of_false (not_stopped_of_normal (setStatus_normal t other change keeps normal))
      (not_stopped_of_normal normal)
  · rw [Stopped, Stopped, setStatus, modify_of_ne t _ same]

theorem leave_locked_stopped (t : ProcTable) (address other : Nat) :
    (t.leaveLocked address).Stopped other ↔ t.Stopped other := by
  by_cases same : other = address
  · rw [Stopped, leaveLocked, same, modify_self]
    rfl
  · rw [Stopped, leaveLocked, modify_of_ne t _ same]
    rfl

/-- No process has joined or left, and those that have stopped had no children. -/
theorem Kin.restatus (kin : t.Kin) (identified : t'.Identified)
    (same : ∀ a, SameIdentity (t.object a) (t'.object a)) (procs : t'.procs = t.procs)
    (childless : ∀ a ∈ t.procs, t'.Stopped a → (t.object a).children = []) : t'.Kin where
  identified := identified
  childless a member stops := by
    rw [(same a).children]
    exact childless a (procs ▸ member) stops
  family a member given := by
    rw [(same a).parent] at given ⊢
    rw [(same _).children, procs]
    exact kin.family a (procs ▸ member) given

/-- After an exit the process itself has stopped as well. Its parent, which is woken, has a child,
so it has not. -/
theorem Kin.exit_stopped (kin : t.Kin) (member : address ∈ t.procs)
    (call : t.doExit address = .ok t') (other : Nat) :
    t'.Stopped other ↔ other = address ∨ t.Stopped other := by
  obtain ⟨given, different, -, rfl⟩ := exit_cases call
  obtain ⟨parentIn, inside⟩ := kin.family address member given
  simp only [Stopped, setStatus]
  by_cases isParent : other = (t.object address).parent
  · subst isParent
    simp only [modify_self, different, false_or]
    refine iff_of_false (fun stops => by cases congrArg ProcStatus.normal stops) fun stops => ?_
    rw [kin.childless _ parentIn stops] at inside
    cases inside
  · rw [modify_of_ne _ _ isParent]
    by_cases self : other = address
    · rw [self, modify_self]
      exact iff_of_true rfl (.inl rfl)
    · rw [modify_of_ne t _ self, or_iff_right self]

theorem Kin.exit (kin : t.Kin) (member : address ∈ t.procs) (call : t.doExit address = .ok t') :
    t'.Kin := by
  have stopped := kin.exit_stopped member call
  have identified := exit_identified kin.identified call
  have same := exit_same call
  obtain ⟨-, -, childless, rfl⟩ := exit_cases call
  refine kin.restatus identified same rfl fun a listed stops => ?_
  rcases (stopped a).mp stops with rfl | before
  · exact childless
  · exact kin.childless a listed before

/-- A reaped child has no children of its own. -/
theorem Kin.without (kin : t.Kin) (identified : (t.without address child).Identified)
    (listed : child ∈ t.procs) (stopped : t.Stopped child) : (t.without address child).Kin where
  identified := identified
  childless a member stops := by
    obtain ⟨-, -, status, children⟩ := drop_child_same t address child a
    have before := kin.childless a (List.mem_of_mem_erase member) (status.symm.trans stops)
    change ((t.dropChild address child).object a).children = []
    rw [children, before, List.erase_nil, ite_self]
  family a member given := by
    have parents := (drop_child_same t address child a).2.1
    change ((t.dropChild address child).object a).parent ≠ 0 at given
    change ((t.dropChild address child).object a).parent ∈ t.procs.erase child ∧
      a ∈ ((t.dropChild address child).object
        ((t.dropChild address child).object a).parent).children
    rw [parents] at given ⊢
    obtain ⟨other, before⟩ := kin.identified.distinct.mem_erase_iff.mp member
    obtain ⟨parentIn, inside⟩ := kin.family a before given
    have different : (t.object a).parent ≠ child := by
      intro same
      rw [same, kin.childless child listed stopped] at inside
      cases inside
    refine ⟨kin.identified.distinct.mem_erase_iff.mpr ⟨different, parentIn⟩, ?_⟩
    rw [(drop_child_same t address child _).2.2.2]
    split
    · exact (List.mem_erase_of_ne other).mpr inside
    · exact inside

/-- The same processes are on the list with the same numbers, and the same have stopped. -/
structure Quiet (t t' : ProcTable) : Prop where
  procs : t'.procs = t.procs
  stopped : ∀ a, t'.Stopped a ↔ t.Stopped a
  pid : ∀ a, (t'.object a).pid = (t.object a).pid

/-- A process that is `NORMAL` gets another status with `NORMAL`. -/
theorem Kin.change_status (kin : t.Kin) (change : ProcStatus → ProcStatus)
    (keeps : ∀ status, status.normal = true → (change status).normal = true)
    (normal : (t.object address).status.normal = true) (identified : t'.Identified)
    (object : t'.object = (t.setStatus address change).object) (procs : t'.procs = t.procs) :
    t'.Kin ∧ Quiet t t' := by
  have same : ∀ a, SameIdentity (t.object a) (t'.object a) := by
    rw [object]
    exact setStatus_same t address change
  have stopped : ∀ a, t'.Stopped a ↔ t.Stopped a := by
    intro a
    rw [← set_status_stopped keeps normal a, Stopped, object, Stopped]
  exact ⟨kin.restatus identified same procs fun a member stops =>
    kin.childless a member ((stopped a).mp stops), procs, stopped, fun a => (same a).pid⟩

theorem Kin.leave_locked (kin : t.Kin) (address : Nat) :
    (t.leaveLocked address).Kin ∧ Quiet t (t.leaveLocked address) :=
  ⟨kin.restatus (leaveLocked_identified kin.identified address) (leaveLocked_same t address) rfl
    fun a member stops => kin.childless a member ((leave_locked_stopped t address a).mp stops),
    rfl, leave_locked_stopped t address, fun a => (leaveLocked_same t address a).pid⟩

/-- A new process is added in front; the others stay as they are. -/
theorem proc_alloc_objects (identified : t.Identified) (fresh : address ∉ t.allocated)
    (allocates : t.procAlloc address = some (pid, t')) :
    t'.procs = address :: t.procs ∧ t'.object address = { pid := pid } ∧
      ∀ a ∈ t.procs, a ≠ address ∧ t'.object a = t.object a := by
  obtain ⟨-, -, -, rfl⟩ := procAlloc_spec identified allocates
  refine ⟨rfl, update_self .., fun a member => ?_⟩
  have apart : a ≠ address := by
    rintro rfl
    exact fresh ((identified.allocated a).mpr member)
  exact ⟨apart, update_of_ne apart ..⟩

/-- A new process has neither parent nor children yet. -/
theorem Kin.procAlloc (kin : t.Kin) (valid : address ≠ 0) (fresh : address ∉ t.allocated)
    (allocates : t.procAlloc address = some (pid, t')) : t'.Kin := by
  have identified := procAlloc_identified kin.identified valid fresh allocates
  obtain ⟨procs, new, old⟩ := proc_alloc_objects kin.identified fresh allocates
  refine ⟨identified, fun a member stops => ?_, fun a member given => ?_⟩
  · rw [procs] at member
    rcases List.mem_cons.mp member with rfl | member
    · rw [new]
    · rw [Stopped, (old a member).2] at stops
      rw [(old a member).2]
      exact kin.childless a member stops
  · rw [procs] at member ⊢
    rcases List.mem_cons.mp member with rfl | member
    · rw [new] at given
      exact absurd rfl given
    · rw [(old a member).2] at given ⊢
      obtain ⟨parentIn, inside⟩ := kin.family a member given
      rw [(old _ parentIn).2]
      exact ⟨List.mem_cons_of_mem _ parentIn, inside⟩

/-- A parent that has not stopped takes a child that has none. -/
theorem Kin.adopt (kin : t.Kin) {status : ProcStatus}
    (identified : (t.adopt parent child status).Identified) (listed : parent ∈ t.procs)
    (different : parent ≠ child) (running : ¬ t.Stopped parent) (normal : status.normal = true) :
    (t.adopt parent child status).Kin := by
  have fields := adopt_fields (t := t) different status
  refine ⟨identified, fun a member stops => ?_, fun a member given => ?_⟩
  · rw [Stopped, (fields a).2.2.2] at stops
    rw [(fields a).2.2.1]
    split at stops
    · rw [stops] at normal
      cases normal
    · rw [if_neg]
      · exact kin.childless a member stops
      · rintro rfl
        exact running stops
  · rw [(fields a).2.1] at given ⊢
    rw [(fields _).2.2.1]
    split
    · rename_i isChild
      rw [if_pos rfl, isChild]
      exact ⟨listed, List.mem_cons_self⟩
    · rename_i other
      rw [if_neg other] at given
      obtain ⟨parentIn, inside⟩ := kin.family a member given
      refine ⟨parentIn, ?_⟩
      split
      · exact List.mem_cons_of_mem _ inside
      · exact inside

/-- A fork adds a process that has not stopped, or none. -/
theorem Kin.fork (kin : t.Kin) (busy : t.current ≠ 0) (valid : address ≠ 0)
    (fresh : address ∉ t.allocated) {value : Int}
    (call : t.doFork t.current address pageDir = .ok (value, t')) :
    t'.Kin ∧ (t'.procs = t.procs ∨ t'.procs = address :: t.procs ∧ ¬ t'.Stopped address) ∧
      ∀ a ∈ t.procs, (t'.Stopped a ↔ t.Stopped a) ∧ (t'.object a).pid = (t.object a).pid := by
  have after := fork_identified kin.identified busy valid fresh call
  obtain ⟨last, normal⟩ := kin.identified.current busy
  have listed := kin.identified.current_listed busy
  have still : ((t.setStatus t.current .forked).object t.current).status.normal = true :=
    setStatus_normal t t.current .forked forked_normal normal
  obtain ⟨forked, quiet⟩ := kin.change_status .forked forked_normal normal
    (kin.identified.restatus (setStatus_same t t.current .forked) rfl rfl rfl rfl
      kin.identified.last fun _ => ⟨last, still⟩) rfl rfl
  rcases fork_cases call with rfl | ⟨pid, made, allocates, rfl | rfl⟩
  · obtain ⟨locked, same⟩ := forked.leave_locked t.current
    exact ⟨locked, .inl rfl, fun a _ =>
      ⟨(same.stopped a).trans (quiet.stopped a), (same.pid a).trans (quiet.pid a)⟩⟩
  · obtain ⟨procs, new, old⟩ := proc_alloc_objects forked.identified fresh allocates
    obtain ⟨locked, same⟩ := (forked.procAlloc valid fresh allocates).leave_locked t.current
    refine ⟨locked, .inr ⟨procs, ?_⟩, fun a member => ?_⟩
    · rw [same.stopped, Stopped, new]
      exact fun stops => by cases congrArg ProcStatus.stop stops
    · rw [same.stopped, same.pid, Stopped, (old a member).2]
      exact ⟨quiet.stopped a, quiet.pid a⟩
  · obtain ⟨procs, -, old⟩ := proc_alloc_objects forked.identified fresh allocates
    have fields := adopt_fields (t := made) (old t.current listed).1
      (made.object t.current).status.forked
    have runs : (made.object t.current).status.normal = true := by
      rw [(old _ listed).2]
      exact still
    refine ⟨(forked.procAlloc valid fresh allocates).adopt after
      (procs ▸ List.mem_cons_of_mem _ listed) (old _ listed).1 (not_stopped_of_normal runs)
      (forked_normal _ runs), .inr ⟨procs, ?_⟩, fun a member => ?_⟩
    · refine not_stopped_of_normal ?_
      rw [(fields address).2.2.2, if_pos rfl]
      exact forked_normal _ runs
    · rw [Stopped, (fields a).2.2.2, (fields a).1, if_neg (old a member).1, (old a member).2]
      exact ⟨quiet.stopped a, quiet.pid a⟩

theorem Kin.schedule (kin : t.Kin) (call : t.schedule = .ok t') : t'.Kin ∧ Quiet t t' := by
  have identified := schedule_identified kin.identified call
  obtain ⟨found, chooses, goes⟩ := bind_eq_ok.mp call
  cases found with
  | none =>
    cases goes
    exact ⟨kin, rfl, fun _ => Iff.rfl, fun _ => rfl⟩
  | some chosen =>
    have runnable := (scheduler_spec chooses).2
    simp only [ProcStatus.runnable, Bool.and_eq_true] at runnable
    cases goes
    exact kin.change_status .dispatch (fun _ => id) runnable.1.2 identified rfl rfl

theorem Kin.preempt (kin : t.Kin) (busy : t.current ≠ 0) (call : t.preempt = .ok t') :
    t'.Kin ∧ Quiet t t' := by
  have identified := preempt_identified kin.identified call
  obtain ⟨_, -, goes⟩ := bind_eq_ok.mp call
  cases goes
  exact kin.change_status .preempt (fun _ => id) (kin.identified.current busy).2 identified rfl rfl

/-- A call of `do_wait` removes a stopped child, or nobody. -/
theorem Kin.wait (kin : t.Kin) (busy : t.current ≠ 0)
    (call : t.doWait t.current waitfor noHang = .ok (value, t')) :
    t'.Kin ∧ match t.reaped t.current waitfor with
      | some child => child ∈ t.procs ∧ t.Stopped child ∧ t' = t.without t.current child
      | none => Quiet t t' := by
  have identified := wait_identified kin.identified busy call
  have listed := kin.identified.current_listed busy
  rw [reaped]
  rcases wait_cases call with ⟨child, pid, finds, reaps⟩ | ⟨finds, rest⟩
  · obtain ⟨inside, stopped⟩ := stoppedChild_spec finds
    have childListed := (kin.identified.children _ listed child inside).1
    obtain ⟨-, -, rfl⟩ := reap_eq_ok.mp reaps
    rw [finds]
    exact ⟨kin.without identified childListed stopped, childListed, stopped, rfl⟩
  · rw [finds]
    rcases rest with rfl | rfl | rfl
    · exact kin.leave_locked _
    · exact ⟨kin, rfl, fun _ => Iff.rfl, fun _ => rfl⟩
    · exact kin.change_status .park (fun _ => id) (kin.identified.current busy).2 identified rfl rfl

theorem boot_kin {init : Nat} (valid : init ≠ 0) : (boot init).Kin := by
  refine ⟨boot_identified valid, fun a _ _ => ?_, fun a _ given => ?_⟩
  · simp only [boot]
    split <;> rfl
  · simp only [boot] at given
    split at given <;> exact absurd rfl given

end ProcTable

namespace Delivery

open ProcTable

variable {d d' : Delivery}

/-- One process apart from the others. -/
theorem pending_perm (d : Delivery) (member : address ∈ d.table.procs) :
    d.pending.Perm ((if d.table.Stopped address then [d.record address] else []) ++
      d.pendingOf (d.table.procs.erase address)) := by
  have apart := ((List.perm_cons_erase member).filter (d.table.Stopped ·)).map d.record
  refine apart.trans (List.Perm.of_eq ?_)
  by_cases stopped : d.table.Stopped address
  · rw [List.filter_cons_of_pos (by simpa using stopped), if_pos stopped]
    rfl
  · rw [List.filter_cons_of_neg (by simpa using stopped), if_neg stopped]
    rfl

theorem pending_of_congr {processes : List Nat}
    (same : ∀ a ∈ processes, (d'.table.Stopped a ↔ d.table.Stopped a) ∧
      d'.record a = d.record a) : d'.pendingOf processes = d.pendingOf processes := by
  have filters : processes.filter (d'.table.Stopped ·) = processes.filter (d.table.Stopped ·) :=
    List.filter_congr fun a member => decide_eq_decide.mpr (same a member).1
  rw [pendingOf, filters]
  exact List.map_congr_left fun a member => (same a (List.mem_of_mem_filter member)).2

/-- What has been exited with is what has been delivered and what is pending. -/
def Balanced (d : Delivery) : Prop := d.exited.Perm (d.delivered ++ d.pending)

theorem Balanced.quiet (balanced : d.Balanced) (quiet : Quiet d.table d'.table)
    (status : d'.exitStatus = d.exitStatus) (exited : d'.exited = d.exited)
    (delivered : d'.delivered = d.delivered) : d'.Balanced := by
  have pending : d'.pending = d.pending := by
    rw [Delivery.pending, quiet.procs]
    exact pending_of_congr fun a _ =>
      ⟨quiet.stopped a, Prod.ext (quiet.pid a) (congrFun status a)⟩
  rw [Balanced, exited, delivered, pending]
  exact balanced

section

variable (balanced : d.Balanced) (kin : d.table.Kin) (busy : d.table.current ≠ 0)
include balanced kin busy

/-- A process that exits is pending from then on. -/
theorem Balanced.exit (call : d.table.doExit d.table.current = .ok t') (ec : Int) :
    (d.next ec t' .exit).Balanced := by
  have listed := kin.identified.current_listed busy
  have running := not_stopped_of_normal (kin.identified.current busy).2
  have stopped := kin.exit_stopped listed call
  have same := exit_same call
  have procs : t'.procs = d.table.procs := by
    obtain ⟨-, -, -, rfl⟩ := exit_cases call
    rfl
  have before := pending_perm d listed
  have after := pending_perm (d.next ec t' .exit) (procs ▸ listed)
  rw [if_neg running] at before
  have stops : (d.next ec t' .exit).table.Stopped d.table.current :=
    (stopped _).mpr (.inl rfl)
  rw [if_pos stops] at after
  -- The others are as they were.
  have others : (d.next ec t' .exit).pendingOf (t'.procs.erase d.table.current) =
      d.pendingOf (d.table.procs.erase d.table.current) := by
    rw [procs]
    refine pending_of_congr fun a member => ?_
    have other := (kin.identified.distinct.mem_erase_iff.mp member).1
    exact ⟨(stopped a).trans (or_iff_right other),
      Prod.ext (same a).pid (update_of_ne other ..)⟩
  have self : (d.next ec t' .exit).record d.table.current =
      ((d.table.object d.table.current).pid, ec) :=
    Prod.ext (same _).pid (update_self ..)
  have joined : (d.next ec t' .exit).pending.Perm
      (((d.table.object d.table.current).pid, ec) :: d.pending) := by
    refine after.trans ?_
    rw [self]
    exact ((List.Perm.of_eq others).trans before.symm).cons _
  calc ((d.table.object d.table.current).pid, ec) :: d.exited
      _ |>.Perm (((d.table.object d.table.current).pid, ec) :: (d.delivered ++ d.pending)) :=
        balanced.cons _
      _ |>.Perm (d.delivered ++ ((d.table.object d.table.current).pid, ec) :: d.pending) :=
        List.perm_middle.symm
      _ |>.Perm (d.delivered ++ (d.next ec t' .exit).pending) := joined.symm.append_left _

/-- A child that is delivered was pending. -/
theorem Balanced.wait (call : d.table.doWait d.table.current waitfor noHang = .ok (value, t'))
    (ec : Int) : (d.next ec t' (.wait waitfor noHang)).Balanced := by
  have outcome := (kin.wait busy call).2
  cases found : d.table.reaped d.table.current waitfor with
  | none =>
    rw [found] at outcome
    refine balanced.quiet outcome rfl rfl ?_
    rw [next, found]
    rfl
  | some child =>
    rw [found] at outcome
    obtain ⟨listed, stopped, rfl⟩ := outcome
    have apart := pending_perm d listed
    rw [if_pos stopped] at apart
    have rest : (d.next ec (d.table.without d.table.current child) (.wait waitfor noHang)).pending =
        d.pendingOf (d.table.procs.erase child) := by
      refine pending_of_congr fun a _ => ?_
      obtain ⟨pid, -, status, -⟩ := drop_child_same d.table d.table.current child a
      exact ⟨iff_of_eq (congrArg (· = _) status), Prod.ext pid rfl⟩
    have delivered : (d.next ec (d.table.without d.table.current child)
        (.wait waitfor noHang)).delivered = d.record child :: d.delivered := by
      rw [next, found]
      rfl
    rw [Balanced, rest, delivered]
    exact (balanced.trans (apart.append_left _)).trans List.perm_middle

theorem Balanced.fork {value : Int} (valid : address ≠ 0) (fresh : address ∉ d.table.allocated)
    (call : d.table.doFork d.table.current address pageDir = .ok (value, t')) (ec : Int) :
    (d.next ec t' (.fork address pageDir)).Balanced := by
  obtain ⟨-, procs, same⟩ := kin.fork busy valid fresh call
  have older : (d.next ec t' (.fork address pageDir)).pendingOf d.table.procs = d.pending := by
    refine pending_of_congr fun a member => ⟨(same a member).1, Prod.ext (same a member).2 ?_⟩
    refine update_of_ne ?_ ..
    rintro rfl
    exact fresh ((kin.identified.allocated a).mpr member)
  have pending : (d.next ec t' (.fork address pageDir)).pending = d.pending := by
    rcases procs with equal | ⟨equal, running⟩
    · exact (congrArg (pendingOf _) equal).trans older
    · refine ((congrArg (pendingOf _) equal).trans ?_).trans older
      exact congrArg (List.map _) (List.filter_cons_of_neg fun stops =>
        running (of_decide_eq_true stops))
  rw [Balanced, pending]
  exact balanced

end

/-- In every run what processes exited with is delivered at most once, and is pending until
then. -/
theorem run_balanced {init : Nat} (valid : init ≠ 0) (run : DeliveryRun init d) :
    d.table.Kin ∧ d.Balanced := by
  induction run with
  | boot =>
    refine ⟨boot_kin valid, List.Perm.of_eq ?_⟩
    simp [pending, pendingOf, boot, Stopped]
  | @step d t' event ec run moves ih =>
    obtain ⟨kin, balanced⟩ := ih
    cases moves with
    | schedule idle call =>
      obtain ⟨after, quiet⟩ := kin.schedule call
      exact ⟨after, balanced.quiet quiet rfl rfl rfl⟩
    | preempt busy call =>
      obtain ⟨after, quiet⟩ := kin.preempt busy call
      exact ⟨after, balanced.quiet quiet rfl rfl rfl⟩
    | fork busy valid fresh call =>
      exact ⟨(kin.fork busy valid fresh call).1, balanced.fork kin busy valid fresh call ec⟩
    | exit busy call =>
      exact ⟨kin.exit (kin.identified.current_listed busy) call, balanced.exit kin busy call ec⟩
    | wait busy call => exact ⟨(kin.wait busy call).1, balanced.wait kin busy call ec⟩

end Delivery

namespace ProcTable

/-- One call of `do_wait` has the right outcome exactly if some child is waited for, or there is
no child at all and the call may sleep; and in every run, what each process exited with has been
delivered by one call, or its process is still there to be waited for. -/
theorem do_wait_meets_iff (t : ProcTable) (exitStatus : Nat → Int) (address : Nat) (waitfor : Int)
    (noHang : Bool) (free : (t.object address).locked = false)
    (unlocked : ∀ child ∈ (t.object address).children, (t.object child).locked = false)
    (allocated : ∀ child ∈ (t.object address).children, child ∈ t.allocated) :
    ((∃ outcome, t.doWaitStatus exitStatus address waitfor noHang = .ok outcome ∧
      t.WaitMeets exitStatus address waitfor noHang outcome) ↔
      (∃ child ∈ (t.object address).children, t.Awaited waitfor child) ∨
        ((t.object address).children = [] ∧ noHang = false)) ∧
    ∀ init ≠ 0, ∀ d, DeliveryRun init d → d.exited.Perm (d.delivered ++ d.pending) :=
  ⟨wait_meets_iff free unlocked allocated, fun _ valid _ run => (Delivery.run_balanced valid run).2⟩

/-- Process 10 has one child, process 20 with number 2. -/
def parentOf (status : ProcStatus) : ProcTable where
  object address :=
    if address = 10 then
      { pid := 1, status := { running := true, normal := true }, children := [20] }
    else { pid := 2, status := status, parent := 10 }
  allocated := {10, 20}
  procs := [20, 10]
  bitmap := setBit (setBit (setBit (fun _ => 0#32) 0 0) 0 1) 0 2
  table pid := if pid = 1 then 10 else if pid = 2 then 20 else 0
  last := 10
  current := 10

/-- A child that has stopped is delivered. -/
theorem parent_reaps_child : (parentOf { stop := true }).Awaited 2 20 ∧
    ∃ outcome, (parentOf { stop := true }).doWaitStatus (fun _ => 7) 10 2 false = .ok outcome ∧
      (parentOf { stop := true }).WaitMeets (fun _ => 7) 10 2 false outcome :=
  ⟨.inr rfl, (do_wait_meets_iff (parentOf { stop := true }) (fun _ => 7) 10 2 false rfl
    (by decide) (by decide)).1.mpr (.inl ⟨20, List.mem_singleton_self 20, .inr rfl⟩)⟩

/-- Nobody has number 5, but the call returns 0, or goes to sleep. -/
theorem wait_for_nobody :
    (∀ child ∈ ((parentOf { ready := true, normal := true }).object 10).children,
      ¬ (parentOf { ready := true, normal := true }).Awaited 5 child) ∧
    (∃ t', (parentOf { ready := true, normal := true }).doWait 10 5 true = .ok (some 0, t')) ∧
    ∃ t', (parentOf { ready := true, normal := true }).doWait 10 5 false = .ok (none, t') :=
  ⟨by decide, ⟨_, rfl⟩, _, rfl⟩

end ProcTable

end Mftt
