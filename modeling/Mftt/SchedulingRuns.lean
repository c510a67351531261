import Mftt.Scheduling

/-!
# The running process is the current one

`RUNNING` is set by the scheduler loop when it chooses a process and is cleared by every
routine that gives the hart up. So the hart runs user code of a process only while that
process, and no other, is marked running, and a timer interrupt then takes the hart from it.

Two routines return to user code without the mark: `do_execve` writes a new status after it
has loaded the image, and `do_fork` has cleared the mark when `proc_alloc` fails. Three paths
return with the lock of the process held, so that the next timer interrupt panics: those of
`do_fork` and `do_execve` after a failed allocation, and `do_wait` under `WNOHANG`. A timer
interrupt between the choice of a process and the switch to it overwrites the saved context
of the process.
-/

namespace Mftt

/-! ## Tasks at rest and at work -/

/-- A process that does not have the hart. -/
structure Task.Quiet (task : Task) : Prop where
  unlocked : task.locked = false
  running : task.status.running = false
  either : task.status.ready = true → task.status.waiting = false

/-- The process that has the hart. -/
structure Task.Active (task : Task) : Prop where
  unlocked : task.locked = false
  running : task.status.running = true
  ready : task.status.ready = false
  waiting : task.status.waiting = false

section

variable {task : Task}

theorem Task.Active.preempt (active : task.Active) :
    Task.Quiet { task with status := task.status.preempt } :=
  ⟨active.unlocked, rfl, fun _ => active.waiting⟩

theorem Task.Active.park (active : task.Active) (chan : Chan) :
    Task.Quiet { task with waitingChan := some chan, status := task.status.park } :=
  ⟨active.unlocked, rfl, fun ready => nomatch ready⟩

theorem Task.Active.stop (active : task.Active) :
    Task.Quiet { task with status := { stop := true } } :=
  ⟨active.unlocked, rfl, fun _ => rfl⟩

theorem Task.Active.forked (active : task.Active) :
    task.status.forked = task.status.preempt :=
  if_pos active.running

theorem Task.Quiet.wake (quiet : task.Quiet) :
    Task.Quiet { task with status := task.status.wake } :=
  ⟨quiet.unlocked, quiet.running, fun _ => rfl⟩

theorem Task.Quiet.dispatch (quiet : task.Quiet) (runnable : task.status.runnable = true) :
    Task.Active { task with status := task.status.dispatch } := by
  have ready : task.status.ready = true := by
    simp only [ProcStatus.runnable, Bool.and_eq_true] at runnable
    exact runnable.1.1
  exact ⟨quiet.unlocked, rfl, rfl, quiet.either ready⟩

end

/-- The process whose code has the hart. -/
def Hart.occupant : Hart → Option Nat
  | .leaving pid => some pid
  | .kernel pid => some pid
  | .user pid => some pid
  | _ => none

/-- Only the process that has the hart is marked running, and it is the current one. -/
structure Orderly (s : Sched) : Prop where
  quiet : ∀ pid, s.hart.occupant ≠ some pid → (s.task pid).Quiet
  active : ∀ pid, s.hart.occupant = some pid → (s.task pid).Active
  current : ∀ pid, s.hart.occupant = some pid → s.current = pid ∧ pid ≠ 0
  parked : s.hart = .loop → s.current = 0
  positive : 0 ∉ s.procs

section

variable {s s' : Sched} {pid : Nat} {chan : Chan}

theorem modify_task_self (s : Sched) (pid : Nat) (change : Task → Task) :
    (s.modify pid change).task pid = change (s.task pid) :=
  Function.update_self ..

theorem modify_task_of_ne (s : Sched) {other : Nat} (change : Task → Task)
    (different : other ≠ pid) :
    (s.modify pid change).task other = s.task other :=
  Function.update_of_ne different ..

section

variable (orderly : Orderly s)
include orderly

theorem Orderly.unlocked (pid : Nat) : (s.task pid).locked = false := by
  by_cases occupies : s.hart.occupant = some pid
  · exact (orderly.active pid occupies).unlocked
  · exact (orderly.quiet pid occupies).unlocked

/-- No lock of a process is held between two steps. -/
theorem Orderly.acquire (pid : Nat) : s.acquire pid = .ok () := by
  rw [Sched.acquire, orderly.unlocked pid]
  rfl

theorem Orderly.modify_quiet (away : s.hart.occupant ≠ some pid) (change : Task → Task)
    (keeps : (change (s.task pid)).Quiet) : Orderly (s.modify pid change) where
  quiet other occupies := by
    by_cases same : other = pid
    · rw [same, modify_task_self]
      exact keeps
    · rw [modify_task_of_ne s change same]
      exact orderly.quiet other occupies
  active other occupies := by
    have different : other ≠ pid := by
      rintro rfl
      exact away occupies
    rw [modify_task_of_ne s change different]
    exact orderly.active other occupies
  current := orderly.current
  parked := orderly.parked
  positive := orderly.positive

theorem Orderly.modify_active (occupies : s.hart.occupant = some pid) (change : Task → Task)
    (keeps : (change (s.task pid)).Active) : Orderly (s.modify pid change) where
  quiet other away := by
    have different : other ≠ pid := by
      rintro rfl
      exact away occupies
    rw [modify_task_of_ne s change different]
    exact orderly.quiet other away
  active other occupant := by
    cases Option.some.inj (occupies.symm.trans occupant)
    rw [modify_task_self]
    exact keeps
  current := orderly.current
  parked := orderly.parked
  positive := orderly.positive

/-- The process that has the hart gives it up: a change that makes it quiet. -/
theorem Orderly.release (occupies : s.hart.occupant = some pid) (change : Task → Task)
    (settles : (change (s.task pid)).Quiet) :
    Orderly { s.modify pid change with hart := .switching pid } where
  quiet other _ := by
    by_cases same : other = pid
    · rw [same]
      exact (modify_task_self s pid change).symm ▸ settles
    · have away : s.hart.occupant ≠ some other := by
        rw [occupies]
        exact fun equal => same (Option.some.inj equal).symm
      exact (modify_task_of_ne s change same).symm ▸ orderly.quiet other away
  active other occupant := nomatch occupant
  current other occupant := nomatch occupant
  parked place := nomatch place
  positive := orderly.positive

/-- A free hart takes up a process: a change that makes it active. -/
theorem Orderly.engage (nobody : s.hart.occupant = none) (set : pid ≠ 0) (change : Task → Task)
    (engages : (change (s.task pid)).Active) (last : Nat) :
    Orderly { s.modify pid change with last := last, current := pid, hart := .leaving pid } where
  quiet other away := by
    have different : other ≠ pid := fun same => away (congrArg some same.symm)
    have free : s.hart.occupant ≠ some other := by
      rw [nobody]
      exact fun occupies => nomatch occupies
    exact (modify_task_of_ne s change different).symm ▸ orderly.quiet other free
  active other occupies := by
    cases occupies
    exact (modify_task_self s pid change).symm ▸ engages
  current other occupies := by
    cases occupies
    exact ⟨rfl, set⟩
  parked place := nomatch place
  positive := orderly.positive

theorem Orderly.move (occupies : s.hart.occupant = some pid) {hart : Hart}
    (same : hart.occupant = some pid) : Orderly { s with hart := hart } where
  quiet other away := orderly.quiet other (by rw [occupies, ← same]; exact away)
  active other occupant := orderly.active other (by rw [occupies, ← same]; exact occupant)
  current other occupant := orderly.current other (by rw [occupies, ← same]; exact occupant)
  parked place := by
    rw [show hart = .loop from place] at same
    cases same
  positive := orderly.positive

end

/-- `yield` outside the loop reaches the context switch. -/
theorem yield_eq (set : s.current ≠ 0) (outside : ∀ pid, s.hart ≠ .leaving pid) :
    s.yield = .ok { s with hart := .switching s.current } := by
  rw [Sched.yield, assert_true _ set]
  split
  · rename_i pid place
    exact absurd place (outside pid)
  · rfl

/-! ## Waking -/

/-- What `wakeup` keeps. -/
structure Woken (s s' : Sched) : Prop where
  orderly : Orderly s'
  hart : s'.hart = s.hart
  current : s'.current = s.current
  procs : s'.procs = s.procs

theorem wakeup_turn_spec (orderly : Orderly s) (chan : Chan) (pid : Nat) :
    ∃ s', s.wakeupTurn chan pid = .ok s' ∧ Woken s s' := by
  rw [Sched.wakeupTurn, orderly.acquire]
  split
  · rename_i sleeps
    refine ⟨_, rfl, ?_, rfl, rfl, rfl⟩
    -- The process that has the hart is not waiting.
    have away : s.hart.occupant ≠ some pid := by
      intro occupies
      have waiting := (orderly.active pid occupies).waiting
      rw [waiting] at sleeps
      cases sleeps.1
    exact orderly.modify_quiet away (fun task => { task with status := task.status.wake })
      (orderly.quiet pid away).wake
  · exact ⟨s, rfl, orderly, rfl, rfl, rfl⟩

/-- The loop of `wakeup`, by induction on the processes left. -/
theorem wakeup_spec (orderly : Orderly s) (chan : Chan) :
    ∃ s', s.wakeup chan = .ok s' ∧ Woken s s' := by
  have loop : ∀ (pids : List Nat) (s : Sched), Orderly s →
      ∃ s', pids.foldlM (Sched.wakeupTurn chan) s = .ok s' ∧ Woken s s' := by
    intro pids
    induction pids with
    | nil =>
      intro s orderly
      exact ⟨s, rfl, orderly, rfl, rfl, rfl⟩
    | cons pid rest ih =>
      intro s orderly
      obtain ⟨s₁, turn, woken₁⟩ := wakeup_turn_spec orderly chan pid
      obtain ⟨s₂, goes, woken₂⟩ := ih s₁ woken₁.orderly
      refine ⟨s₂, ?_, woken₂.orderly, woken₂.hart.trans woken₁.hart,
        woken₂.current.trans woken₁.current, woken₂.procs.trans woken₁.procs⟩
      exact bind_eq_ok.mpr ⟨s₁, turn, goes⟩
  exact loop s.procs s orderly

/-! ## The scheduler loop -/

theorem pick_spec {pids : List Nat} (picks : s.pick pids = .ok (some pid)) :
    pid ∈ pids ∧ (s.task pid).status.runnable = true := by
  induction pids with
  | nil => cases picks
  | cons first rest ih =>
    obtain ⟨_, -, goes⟩ := bind_eq_ok.mp picks
    split at goes
    · rename_i runnable
      cases goes
      exact ⟨List.mem_cons_self, runnable⟩
    · obtain ⟨member, runnable⟩ := ih goes
      exact ⟨List.mem_cons_of_mem _ member, runnable⟩

theorem scheduler_spec (chooses : s.scheduler = .ok (some pid)) :
    pid ∈ s.procs ∧ (s.task pid).status.runnable = true := by
  rw [Sched.scheduler] at chooses
  split at chooses
  · exact pick_spec chooses
  · split at chooses
    · obtain ⟨found, first, goes⟩ := bind_eq_ok.mp chooses
      cases found with
      | some chosen =>
        cases goes
        obtain ⟨member, runnable⟩ := pick_spec first
        exact ⟨(List.dropWhile_sublist _).subset (List.mem_of_mem_tail member), runnable⟩
      | none =>
        obtain ⟨member, runnable⟩ := pick_spec goes
        exact ⟨CyclicOrder.upTo_subset _ _ member, runnable⟩
    · cases chooses

section

variable (orderly : Orderly s)
include orderly

theorem loop_body_orderly (place : s.hart = .loop) (call : s.loopBody = .ok s') : Orderly s' := by
  have nobody : s.hart.occupant = none := by
    rw [place]
    rfl
  obtain ⟨found, chooses, goes⟩ := bind_eq_ok.mp call
  cases found with
  | none =>
    cases goes
    exact ⟨orderly.quiet, orderly.active,
      fun pid occupies => (nomatch nobody.symm.trans occupies), fun _ => rfl, orderly.positive⟩
  | some pid =>
    obtain ⟨member, runnable⟩ := scheduler_spec chooses
    have set : pid ≠ 0 := by
      rintro rfl
      exact orderly.positive member
    have quiet : (s.task pid).Quiet := by
      apply orderly.quiet
      rw [nobody]
      exact fun occupies => nomatch occupies
    -- In the loop there is no current process to preempt.
    dsimp only at goes
    rw [if_neg fun busy => busy.1 (orderly.parked place)] at goes
    cases goes
    exact orderly.engage nobody set (fun task => { task with status := task.status.dispatch })
      (quiet.dispatch runnable) pid

/-! ## Giving the hart up -/

/-- A process in the kernel that settles and then yields. -/
theorem Orderly.yields (occupies : s.hart.occupant = some pid)
    (outside : ∀ pid, s.hart ≠ .leaving pid) (change : Task → Task)
    (settles : (change (s.task pid)).Quiet) :
    (s.modify pid change).yield = .ok { s.modify pid change with hart := .switching pid } ∧
      Orderly { s.modify pid change with hart := .switching pid } := by
  obtain ⟨rfl, set⟩ := orderly.current pid occupies
  exact ⟨yield_eq (s := s.modify s.current change) set outside,
    orderly.release occupies change settles⟩

theorem timer_preempts (occupies : s.hart.occupant = some pid)
    (outside : ∀ pid, s.hart ≠ .leaving pid) :
    ∃ s', s.timerInterrupt = .ok s' ∧ Orderly s' ∧ s'.hart = .switching pid ∧
      (s'.task pid).status.running = false ∧ (s'.task pid).status.ready = true := by
  obtain ⟨s₁, wakes, woken⟩ := wakeup_spec orderly .ticks
  have occupies₁ : s₁.hart.occupant = some pid := by rw [woken.hart, occupies]
  have outside₁ : ∀ pid, s₁.hart ≠ .leaving pid := by
    rw [woken.hart]
    exact outside
  obtain ⟨current, set⟩ := woken.orderly.current pid occupies₁
  have active := woken.orderly.active pid occupies₁
  obtain ⟨yields, after⟩ := woken.orderly.yields occupies₁ outside₁
    (fun task => { task with status := task.status.preempt }) active.preempt
  refine ⟨_, ?_, after, rfl, ?_⟩
  · rw [Sched.timerInterrupt, wakes, bind_ok, current, if_pos ⟨set, active.running⟩,
      woken.orderly.acquire]
    exact yields
  · rw [modify_task_self]
    exact ⟨rfl, rfl⟩

theorem timer_idle (nobody : s.hart.occupant = none) (call : s.timerInterrupt = .ok s') :
    Orderly s' := by
  obtain ⟨s₁, wakes, woken⟩ := wakeup_spec orderly .ticks
  rw [Sched.timerInterrupt, wakes, bind_ok, if_neg] at call
  · cases call
    exact woken.orderly
  · rintro ⟨-, running⟩
    have quiet := woken.orderly.quiet s₁.current (by
      rw [woken.hart, nobody]
      exact fun occupies => nomatch occupies)
    rw [quiet.running] at running
    cases running

/-- A child that `proc_alloc` put on the list. -/
theorem Orderly.adopt (away : s.hart.occupant ≠ some pid) (set : pid ≠ 0) (task : Task)
    (quiet : task.Quiet) :
    Orderly ({ s with procs := pid :: s.procs }.modify pid fun _ => task) := by
  have listed : Orderly { s with procs := pid :: s.procs } :=
    ⟨orderly.quiet, orderly.active, orderly.current, orderly.parked, by
      intro member
      cases member with
      | head => exact set rfl
      | tail _ inside => exact orderly.positive inside⟩
  exact listed.modify_quiet away (fun _ => task) quiet

end

/-! ## The routines of a process in the kernel -/

section Kernel

variable (orderly : Orderly s) (place : s.hart = .kernel pid)

include place

theorem kernel_occupies : s.hart.occupant = some pid := by
  rw [place]
  rfl

theorem kernel_outside : ∀ other, s.hart ≠ .leaving other := by
  rw [place]
  exact fun _ same => nomatch same

include orderly

theorem park_orderly (call : s.park pid chan = .ok s') : Orderly s' := by
  have occupies := kernel_occupies place
  obtain ⟨yields, after⟩ := orderly.yields occupies (kernel_outside place)
    (fun task => { task with waitingChan := some chan, status := task.status.park })
    ((orderly.active pid occupies).park chan)
  cases yields.symm.trans call
  exact after

theorem sleep_orderly (call : s.sleep pid chan = .ok s') : Orderly s' := by
  rw [Sched.sleep, orderly.acquire] at call
  exact park_orderly orderly place call

theorem sched_yield_orderly (call : s.schedYield pid = .ok s') : Orderly s' := by
  have occupies := kernel_occupies place
  obtain ⟨yields, after⟩ := orderly.yields occupies (kernel_outside place)
    (fun task => { task with status := task.status.preempt })
    (orderly.active pid occupies).preempt
  cases yields.symm.trans call
  exact after

/-- A `do_fork` that got its process: parent and child are ready, and the parent yields. -/
theorem fork_orderly {child : Nat} (fresh : child ≠ 0)
    (call : s.doFork pid (.child child) = .ok s') : Orderly s' := by
  have occupies := kernel_occupies place
  have active := orderly.active pid occupies
  obtain ⟨current, set⟩ := orderly.current pid occupies
  have settles : Task.Quiet { s.task pid with status := (s.task pid).status.forked } := by
    rw [active.forked]
    exact active.preempt
  have released := orderly.release occupies
    (fun task => { task with status := task.status.forked }) settles
  have parent : ((s.setStatus pid .forked).task pid).status = (s.task pid).status.preempt := by
    rw [Sched.setStatus, modify_task_self, active.forked]
  rw [Sched.doFork, orderly.acquire] at call
  dsimp only at call
  rw [yield_eq] at call
  · cases call
    have quiet : Task.Quiet
        { status := ((s.setStatus pid .forked).task pid).status.forked
          waitingChan := ((s.setStatus pid .forked).task pid).waitingChan
          parent := pid } := by
      rw [parent]
      exact ⟨rfl, rfl, fun _ => active.waiting⟩
    cases current
    exact released.adopt (fun occupant => nomatch occupant) fresh _ quiet
  · exact current ▸ set
  · exact kernel_outside place

/-- A `do_exit` that reaches its `yield`: the process is stopped and its parent ready. -/
theorem exit_orderly (call : s.doExit pid = .ok s') : Orderly s' := by
  have occupies := kernel_occupies place
  obtain ⟨current, set⟩ := orderly.current pid occupies
  have stopped := orderly.release occupies
    (fun task => { task with status := { stop := true } }) (orderly.active pid occupies).stop
  rw [Sched.doExit, orderly.acquire, bind_ok] at call
  split at call
  · cases call
  · obtain ⟨_, -, goes⟩ := bind_eq_ok.mp call
    split at goes
    · cases goes
    · rw [orderly.acquire] at goes
      split at goes
      · cases goes
      · rw [yield_eq] at goes
        · cases goes
          cases current
          exact stopped.modify_quiet (fun occupant => nomatch occupant)
            (fun task => { task with status := task.status.wake })
            (stopped.quiet _ fun occupant => nomatch occupant).wake
        · exact current ▸ set
        · exact kernel_outside place

/-- A `do_wait` that does not return under `WNOHANG`. -/
theorem wait_orderly {waited : Sched.Waited} (hangs : waited ≠ .noHang)
    (call : s.doWait pid waited = .ok s') : Orderly s' := by
  cases waited with
  | reaped child =>
    rw [Sched.doWait, orderly.acquire] at call
    rw [orderly.acquire] at call
    cases call
    exact ⟨orderly.quiet, orderly.active, orderly.current, orderly.parked,
      fun member => orderly.positive (List.mem_of_mem_erase member)⟩
  | noHang => exact absurd rfl hangs
  | noChild =>
    rw [Sched.doWait, orderly.acquire] at call
    cases call
    exact orderly
  | sleeps =>
    rw [Sched.doWait, orderly.acquire, bind_ok] at call
    obtain ⟨_, -, goes⟩ := bind_eq_ok.mp call
    exact park_orderly orderly place goes

end Kernel

/-! ## Runs -/

/-- The steps after which `RUNNING` still means current: no image is loaded by `do_execve`,
no allocation of `do_fork` or `do_execve` fails, `do_wait` does not return under `WNOHANG`
without a child, and no timer interrupt arrives between the choice of a process and the
switch to it. -/
def Harmless (s : Sched) : SchedEvent → Prop
  | .timer => ∀ pid, s.hart ≠ .leaving pid
  | .fork allocated => ∃ pid, allocated = .child pid
  | .execve executed => executed = .noFile
  | .wait waited => waited ≠ .noHang
  | _ => True

/-- A harmless step keeps the processes in order. -/
theorem orderly_step (orderly : Orderly s) {event : SchedEvent} (harmless : Harmless s event)
    (moves : SchedStep s event s') : Orderly s' := by
  cases moves with
  | schedule place call => exact loop_body_orderly orderly place call
  | @enter pid place =>
    have occupies : s.hart.occupant = some pid := by
      rw [place]
      rfl
    have active := orderly.active pid occupies
    have cleared := orderly.modify_active occupies (fun task => { task with waitingChan := none })
      ⟨active.unlocked, active.running, active.ready, active.waiting⟩
    exact cleared.move occupies rfl
  | @switch pid place =>
    have quiet : ∀ pid, (s.task pid).Quiet := by
      intro pid
      apply orderly.quiet
      rw [place]
      exact fun occupies => nomatch occupies
    exact ⟨fun pid _ => quiet pid, fun _ occupies => (nomatch occupies),
      fun _ occupies => (nomatch occupies), fun _ => rfl, orderly.positive⟩
  | timer place call =>
    cases occupant : s.hart.occupant with
    | none => exact timer_idle orderly occupant call
    | some pid =>
      obtain ⟨after, interrupts, orderly', -⟩ := timer_preempts orderly occupant harmless
      cases interrupts.symm.trans call
      exact orderly'
  | @external _ chan place call =>
    obtain ⟨after, wakes, woken⟩ := wakeup_spec orderly chan
    cases wakes.symm.trans call
    exact woken.orderly
  | @trap pid place =>
    have occupies : s.hart.occupant = some pid := by
      rw [place]
      rfl
    exact orderly.move occupies rfl
  | @resume pid place =>
    have occupies := kernel_occupies place
    exact orderly.move occupies (congrArg some (orderly.current pid occupies).1)
  | sleep place call => exact sleep_orderly orderly place call
  | @wakeup _ _ chan place call =>
    obtain ⟨after, wakes, woken⟩ := wakeup_spec orderly chan
    cases wakes.symm.trans call
    exact woken.orderly
  | schedYield place call => exact sched_yield_orderly orderly place call
  | fork place fresh call =>
    obtain ⟨child, rfl⟩ := harmless
    exact fork_orderly orderly place fresh.1 call
  | execve place call =>
    cases harmless
    cases call
    exact orderly
  | exit place call => exact exit_orderly orderly place call
  | wait place possible call => exact wait_orderly orderly place harmless call

theorem boot_orderly : Orderly .boot where
  quiet pid _ := by
    dsimp only [Sched.boot]
    split
    · exact ⟨rfl, rfl, fun _ => rfl⟩
    · exact ⟨rfl, rfl, fun _ => rfl⟩
  active _ occupies := nomatch occupies
  current _ occupies := nomatch occupies
  parked _ := rfl
  positive := by decide

/-- While the hart runs user code of a process, that process is marked running and neither
ready nor waiting, no other process is marked running, and a timer interrupt takes the hart
from it and makes it ready. -/
def RunningMeansCurrent (s : Sched) : Prop :=
  ∀ pid, s.hart = .user pid →
    (s.task pid).status.running = true ∧ (s.task pid).status.ready = false ∧
    (s.task pid).status.waiting = false ∧
    (∀ other, other ≠ pid → (s.task other).status.running = false) ∧
    ∃ s', s.timerInterrupt = .ok s' ∧ s'.hart = .switching pid ∧
      (s'.task pid).status.running = false ∧ (s'.task pid).status.ready = true

theorem Orderly.running_means_current (orderly : Orderly s) : RunningMeansCurrent s := by
  intro pid place
  have occupies : s.hart.occupant = some pid := by
    rw [place]
    rfl
  have active := orderly.active pid occupies
  refine ⟨active.running, active.ready, active.waiting, ?_, ?_⟩
  · intro other different
    apply (orderly.quiet other _).running
    rw [occupies]
    exact fun same => different (Option.some.inj same).symm
  · have outside : ∀ pid, s.hart ≠ .leaving pid := by
      rw [place]
      exact fun _ same => nomatch same
    obtain ⟨s', interrupts, -, after⟩ := timer_preempts orderly occupies outside
    exact ⟨s', interrupts, after⟩

theorem SchedRun.orderly (run : SchedRun Harmless s) : Orderly s := by
  induction run with
  | boot => exact boot_orderly
  | step _ meets moves ih => exact orderly_step ih meets moves

/-- In every state of a run of harmless steps, `RUNNING` means current. -/
theorem harmless_runs_current (run : SchedRun Harmless s) : RunningMeansCurrent s :=
  run.orderly.running_means_current

end

/-! ## Runs on fixed steps -/

/-- `init` in user code for the first time. -/
def Sched.initRuns : Sched :=
  { (Sched.boot.setStatus 1 .dispatch).modify 1 fun task => { task with waitingChan := none } with
    last := 1
    current := 1
    hart := .user 1 }

theorem init_runs (allowed : Sched → SchedEvent → Prop) (schedules : allowed .boot .schedule)
    (enters : ∀ s, allowed s .enter) (resumes : ∀ s, allowed s .resume) :
    SchedRun allowed .initRuns := by
  have chosen := SchedRun.step .boot schedules (.schedule rfl rfl)
  have entered := SchedRun.step chosen (enters _) (.enter rfl)
  exact .step entered (resumes _) (.resume rfl)

/-- `init` is in user code, marked running. -/
theorem init_current : RunningMeansCurrent .initRuns :=
  harmless_runs_current (init_runs Harmless trivial (fun _ => trivial) fun _ => trivial)

/-- After a successful `do_execve` the process runs user code without its mark, and a timer
interrupt leaves it the hart. -/
theorem execve_unmarks : ∃ s, SchedRun (fun _ _ => True) s ∧ s.hart = .user 1 ∧
    (s.task 1).status = { ready := true, normal := true } ∧
    (∃ s', s.timerInterrupt = .ok s' ∧ s'.hart = .user 1) ∧ ¬ RunningMeansCurrent s := by
  have user := init_runs (fun _ _ => True) trivial (fun _ => trivial) fun _ => trivial
  have trapped := SchedRun.step user trivial (.trap rfl)
  have loaded := SchedRun.step trapped trivial
    (show SchedStep _ (.execve .loaded) _ from .execve rfl rfl)
  have back := SchedRun.step loaded trivial (.resume rfl)
  refine ⟨_, back, rfl, rfl, ⟨_, rfl, rfl⟩, fun current => ?_⟩
  exact absurd (current 1 rfl).1 (by decide)

end Mftt
