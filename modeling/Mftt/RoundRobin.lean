import Mftt.CyclicOrder
import Mftt.SchedulingRuns

/-!
# Round robin

The scheduler reads the process list from behind the process it chose last, around to that
process, and takes the first one that can run. A process joins at the head of the list, which
is between the end of one reading and the start of the next, and the process that is reaped is
never the last one chosen, since that one is the parent that reaps. So the order of the processes
that stay is cyclic, and none that can run is passed.
-/

namespace Mftt

open CyclicOrder

/-! ## The choice -/

variable {s s' : Sched} {pid : Nat}

theorem pick_append (s : Sched) (first second : List Nat) :
    s.pick (first ++ second) = s.pick first >>= fun found =>
      match found with
      | some pid => .ok (some pid)
      | none => s.pick second := by
  induction first with
  | nil => rfl
  | cons pid rest ih =>
    rw [List.cons_append, Sched.pick, Sched.pick]
    cases s.acquire pid with
    | error fault => rfl
    | ok _ =>
      split
      · rfl
      · exact ih

/-- The processes in the order in which the scheduler reads them. -/
def Sched.reading (s : Sched) : List Nat :=
  if s.last = 0 then s.procs else order s.last s.procs

theorem scheduler_eq (listed : s.last = 0 ∨ s.last ∈ s.procs) :
    s.scheduler = s.pick s.reading := by
  rw [Sched.scheduler, Sched.reading]
  split
  · rfl
  · rename_i set
    rw [if_pos (listed.resolve_left set), order]
    exact (pick_append s _ _).symm

theorem pick_first {pids : List Nat} (picks : s.pick pids = .ok (some pid)) :
    ∃ passed left, pids = passed ++ pid :: left ∧
      (∀ other ∈ passed, (s.task other).status.runnable = false) ∧
        (s.task pid).status.runnable = true := by
  induction pids with
  | nil => cases picks
  | cons first rest ih =>
    obtain ⟨_, -, goes⟩ := bind_eq_ok.mp picks
    split at goes
    · rename_i runnable
      cases goes
      exact ⟨[], rest, rfl, fun _ member => absurd member List.not_mem_nil, runnable⟩
    · rename_i idle
      obtain ⟨passed, left, rfl, idles, runnable⟩ := ih goes
      refine ⟨first :: passed, left, rfl, fun other member => ?_, runnable⟩
      rcases List.mem_cons.mp member with rfl | member
      · exact Bool.eq_false_iff.mpr idle
      · exact idles other member

theorem pick_none {pids : List Nat} (picks : s.pick pids = .ok none) :
    ∀ other ∈ pids, (s.task other).status.runnable = false := by
  induction pids with
  | nil => exact fun _ member => absurd member List.not_mem_nil
  | cons first rest ih =>
    obtain ⟨_, -, goes⟩ := bind_eq_ok.mp picks
    split at goes
    · cases goes
    · rename_i idle
      intro other member
      rcases List.mem_cons.mp member with rfl | member
      · exact Bool.eq_false_iff.mpr idle
      · exact ih goes other member

theorem pick_returns (unlocked : ∀ pid, (s.task pid).locked = false) (pids : List Nat) :
    ∃ found, s.pick pids = .ok found := by
  induction pids with
  | nil => exact ⟨none, rfl⟩
  | cons first rest ih =>
    have free : s.acquire first = .ok () := by
      rw [Sched.acquire, unlocked first]
      rfl
    rw [Sched.pick, free]
    split
    · exact ⟨some first, rfl⟩
    · exact ih

/-! ## What the steps do to the list -/

/-- The process on the hart is the one chosen last, it is alive, and the one chosen last is on
the list. -/
structure Listed (s : Sched) : Prop where
  distinct : s.procs.Nodup
  positive : 0 ∉ s.procs
  last : s.last = 0 ∨ s.last ∈ s.procs
  occupant : ∀ pid, s.hart.occupant = some pid →
    s.current = pid ∧ s.last = pid ∧ (s.task pid).status.normal = true

/-- What a routine keeps that neither chooses, nor adds, nor removes a process. -/
structure ListKept (s s' : Sched) : Prop where
  procs : s'.procs = s.procs
  last : s'.last = s.last
  current : s'.current = s.current
  normal : ∀ pid, (s.task pid).status.normal = true → (s'.task pid).status.normal = true

variable {chan : Chan}

section

variable {s'' : Sched}

theorem ListKept.refl (s : Sched) : ListKept s s := ⟨rfl, rfl, rfl, fun _ => id⟩

theorem ListKept.trans (first : ListKept s s') (second : ListKept s' s'') : ListKept s s'' :=
  ⟨second.procs.trans first.procs, second.last.trans first.last,
    second.current.trans first.current, fun pid set => second.normal pid (first.normal pid set)⟩

/-- A change of one process that does not clear `NORMAL`. -/
theorem ListKept.modify (s : Sched) (pid : Nat) (change : Task → Task)
    (normal : (s.task pid).status.normal = true → (change (s.task pid)).status.normal = true) :
    ListKept s (s.modify pid change) := by
  refine ⟨rfl, rfl, rfl, fun other set => ?_⟩
  by_cases same : other = pid
  · subst same
    rw [modify_task_self]
    exact normal set
  · rwa [modify_task_of_ne s change same]

theorem ListKept.leaveLocked (s : Sched) (pid : Nat) : ListKept s (s.leaveLocked pid) :=
  .modify s pid _ id

theorem wakeup_turn_keeps (call : s.wakeupTurn chan pid = .ok s') :
    ListKept s s' ∧ s'.hart = s.hart := by
  obtain ⟨_, -, goes⟩ := bind_eq_ok.mp call
  split at goes
  · cases goes
    exact ⟨.modify s pid _ fun _ => rfl, rfl⟩
  · cases goes
    exact ⟨.refl s, rfl⟩

theorem wakeup_keeps (call : s.wakeup chan = .ok s') : ListKept s s' ∧ s'.hart = s.hart := by
  have loop : ∀ (pids : List Nat) (s : Sched), pids.foldlM (Sched.wakeupTurn chan) s = .ok s' →
      ListKept s s' ∧ s'.hart = s.hart := by
    intro pids
    induction pids with
    | nil =>
      intro s call
      obtain rfl := Except.ok.inj call
      exact ⟨.refl s, rfl⟩
    | cons pid rest ih =>
      intro s call
      obtain ⟨s₁, turn, goes⟩ := bind_eq_ok.mp call
      obtain ⟨keeps, hart⟩ := wakeup_turn_keeps turn
      obtain ⟨keeps', hart'⟩ := ih s₁ goes
      exact ⟨keeps.trans keeps', hart'.trans hart⟩
  exact loop s.procs s call

theorem yield_keeps (call : s.yield = .ok s') : ListKept s s' ∧ s'.hart.occupant = none := by
  obtain ⟨_, -, goes⟩ := bind_eq_ok.mp call
  split at goes
  · cases goes
    exact ⟨⟨rfl, rfl, rfl, fun _ => id⟩, rfl⟩
  · cases goes
    exact ⟨⟨rfl, rfl, rfl, fun _ => id⟩, rfl⟩

/-- The hart is given up, or the same process keeps it. -/
theorem Listed.keep (listed : Listed s) (keeps : ListKept s s')
    (hart : ∀ pid, s'.hart.occupant = some pid → s.hart.occupant = some pid) : Listed s' where
  distinct := keeps.procs ▸ listed.distinct
  positive := keeps.procs ▸ listed.positive
  last := by
    rw [keeps.procs, keeps.last]
    exact listed.last
  occupant := by
    intro pid occupies
    obtain ⟨current, last, normal⟩ := listed.occupant pid (hart pid occupies)
    exact ⟨keeps.current.trans current, keeps.last.trans last, keeps.normal pid normal⟩

end

/-- What a step does to the list and to the process chosen last. -/
inductive ListMove (s s' : Sched) : SchedEvent → Prop where
  | keeps {event : SchedEvent} (other : event ≠ .schedule) (procs : s'.procs = s.procs)
      (last : s'.last = s.last) : ListMove s s' event
  | joins {event : SchedEvent} (other : event ≠ .schedule) {pid : Nat} (set : pid ≠ 0)
      (new : pid ∉ s.procs) (procs : s'.procs = pid :: s.procs) (last : s'.last = s.last) :
      ListMove s s' event
  | leaves {event : SchedEvent} (other : event ≠ .schedule) {pid : Nat} (member : pid ∈ s.procs)
      (different : pid ≠ s.last) (procs : s'.procs = s.procs.erase pid)
      (last : s'.last = s.last) : ListMove s s' event
  | idle (none : s.scheduler = .ok none) (procs : s'.procs = s.procs)
      (last : s'.last = s.last) : ListMove s s' .schedule
  | chooses {pid : Nat} (some : s.scheduler = .ok (some pid)) (procs : s'.procs = s.procs)
      (last : s'.last = pid) : ListMove s s' .schedule

section

theorem loop_body_listed (listed : Listed s) (place : s.hart = .loop)
    (call : s.loopBody = .ok s') : Listed s' ∧ ListMove s s' .schedule := by
  obtain ⟨found, chooses, goes⟩ := bind_eq_ok.mp call
  cases found with
  | none =>
    cases goes
    refine ⟨⟨listed.distinct, listed.positive, listed.last, fun pid occupies => ?_⟩,
      .idle chooses rfl rfl⟩
    rw [show s.hart = .loop from place] at occupies
    cases occupies
  | some pid =>
    obtain ⟨member, runnable⟩ := scheduler_spec chooses
    simp only [ProcStatus.runnable, Bool.and_eq_true] at runnable
    obtain ⟨s₁, preempts, goes⟩ := bind_eq_ok.mp goes
    have keeps : ListKept { s with last := pid } s₁ := by
      split at preempts
      · obtain ⟨_, -, preempts⟩ := bind_eq_ok.mp preempts
        cases preempts
        exact .modify _ _ _ id
      · cases preempts
        exact .refl _
    have dispatched : ListKept s₁ (s₁.setStatus pid .dispatch) := .modify s₁ pid _ id
    have both := keeps.trans dispatched
    cases goes
    refine ⟨⟨both.procs ▸ listed.distinct, both.procs ▸ listed.positive, .inr ?_, ?_⟩,
      .chooses chooses both.procs both.last⟩
    · rw [show (s₁.setStatus pid .dispatch).last = pid from both.last]
      exact both.procs ▸ member
    · rintro other ⟨⟩
      exact ⟨rfl, both.last, both.normal pid runnable.1.2⟩

theorem timer_keeps (call : s.timerInterrupt = .ok s') :
    ListKept s s' ∧ (s'.hart = s.hart ∨ s'.hart.occupant = none) := by
  obtain ⟨s₁, wakes, goes⟩ := bind_eq_ok.mp call
  obtain ⟨woken, hart⟩ := wakeup_keeps wakes
  split at goes
  · obtain ⟨_, -, goes⟩ := bind_eq_ok.mp goes
    obtain ⟨yields, nobody⟩ := yield_keeps goes
    have preempted : ListKept s₁ (s₁.setStatus s₁.current .preempt) := .modify s₁ _ _ id
    exact ⟨woken.trans (preempted.trans yields), .inr nobody⟩
  · cases goes
    exact ⟨woken, .inl hart⟩

/-- A process that is parked, preempted or exits in the kernel and yields. -/
theorem modify_yield (change : Task → Task) (call : (s.modify pid change).yield = .ok s') :
    s'.procs = s.procs ∧ s'.last = s.last ∧ s'.hart.occupant = none := by
  obtain ⟨keeps, nobody⟩ := yield_keeps call
  exact ⟨keeps.procs, keeps.last, nobody⟩

section

variable (listed : Listed s)
include listed

/-- No process is on the hart any more, and the list is as it was. -/
theorem Listed.vacate (procs : s'.procs = s.procs) (last : s'.last = s.last)
    (nobody : s'.hart.occupant = none) : Listed s' where
  distinct := procs ▸ listed.distinct
  positive := procs ▸ listed.positive
  last := by
    rw [procs, last]
    exact listed.last
  occupant := by
    intro pid occupies
    rw [nobody] at occupies
    cases occupies

theorem Listed.join (set : pid ≠ 0) (new : pid ∉ s.procs) (procs : s'.procs = pid :: s.procs)
    (last : s'.last = s.last)
    (occupant : ∀ other, s'.hart.occupant = some other →
      s'.current = other ∧ s'.last = other ∧ (s'.task other).status.normal = true) : Listed s' where
  distinct := by
    rw [procs]
    exact List.nodup_cons.mpr ⟨new, listed.distinct⟩
  positive := by
    rw [procs]
    intro member
    rcases List.mem_cons.mp member with same | member
    · exact set same.symm
    · exact listed.positive member
  last := by
    rw [procs, last]
    exact listed.last.imp_right (List.mem_cons_of_mem pid)
  occupant := occupant

/-- A fork keeps the list or puts the child in front of it. -/
theorem fork_listed {allocated : Sched.Allocated}
    (fresh : allocated.Fresh s.procs) (call : s.doFork pid allocated = .ok s') :
    Listed s' ∧ ListMove s s' (.fork allocated) := by
  obtain ⟨_, -, goes⟩ := bind_eq_ok.mp call
  have forked : ListKept s (s.setStatus pid .forked) := by
    refine .modify s pid _ fun normal => ?_
    show ((s.task pid).status.forked).normal = true
    rw [ProcStatus.forked]
    split
    · exact normal
    · exact normal
  cases allocated with
  | noPid =>
    cases goes
    have keeps := forked.trans (.leaveLocked _ pid)
    exact ⟨listed.keep keeps fun _ => id, .keeps (by rintro ⟨⟩) keeps.procs keeps.last⟩
  | noPageDir child =>
    obtain ⟨set, new⟩ := fresh
    cases goes
    refine ⟨listed.join set new rfl rfl fun other occupies' => ?_,
      .joins (by rintro ⟨⟩) set new rfl rfl⟩
    obtain ⟨current, last, normal⟩ := listed.occupant other occupies'
    refine ⟨current, last, ?_⟩
    have different : other ≠ child := by
      rintro rfl
      rcases listed.last with none | member
      · exact set (last.symm.trans none)
      · exact new (last ▸ member)
    have kept := (ListKept.leaveLocked ({ s.setStatus pid .forked with
      procs := child :: s.procs }.modify child fun _ => {}) pid).normal other
    refine kept ?_
    rw [modify_task_of_ne _ _ different]
    exact forked.normal other normal
  | child child =>
    obtain ⟨set, new⟩ := fresh
    obtain ⟨procs, last, nobody⟩ := modify_yield _ goes
    refine ⟨listed.join set new procs last fun other occupies' => ?_,
      .joins (by rintro ⟨⟩) set new procs last⟩
    rw [nobody] at occupies'
    cases occupies'

theorem exit_listed (call : s.doExit pid = .ok s') : Listed s' ∧ ListMove s s' .exit := by
  obtain ⟨_, -, goes⟩ := bind_eq_ok.mp call
  split at goes
  · cases goes
  · obtain ⟨_, -, goes⟩ := bind_eq_ok.mp goes
    split at goes
    · cases goes
    · obtain ⟨_, -, goes⟩ := bind_eq_ok.mp goes
      split at goes
      · cases goes
      · obtain ⟨procs, last, nobody⟩ := modify_yield _ goes
        exact ⟨listed.vacate procs last nobody, .keeps (by rintro ⟨⟩) procs last⟩

/-- The process that is reaped is not the one chosen last, since that one reaps it. -/
theorem wait_listed (place : s.hart = .kernel pid) {waited : Sched.Waited}
    (possible : waited.Possible s pid) (call : s.doWait pid waited = .ok s') :
    Listed s' ∧ ListMove s s' (.wait waited) := by
  obtain ⟨current, last, normal⟩ := listed.occupant pid (kernel_occupies place)
  obtain ⟨_, -, goes⟩ := bind_eq_ok.mp call
  cases waited with
  | reaped child =>
    obtain ⟨member, stopped⟩ := possible
    obtain ⟨_, -, goes⟩ := bind_eq_ok.mp goes
    cases goes
    have inside : child ∈ s.procs := List.mem_of_mem_filter member
    have different : child ≠ pid := by
      rintro rfl
      rw [stopped] at normal
      cases normal
    refine ⟨⟨listed.distinct.erase child,
      fun still => listed.positive (List.mem_of_mem_erase still),
      listed.last.imp_right fun member => ?_, listed.occupant⟩,
      .leaves (by rintro ⟨⟩) inside (last ▸ different) rfl rfl⟩
    exact (List.mem_erase_of_ne (last ▸ different.symm)).mpr member
  | noHang =>
    obtain ⟨_, -, goes⟩ := bind_eq_ok.mp goes
    cases goes
    have keeps := ListKept.leaveLocked s pid
    exact ⟨listed.keep keeps fun _ => id, .keeps (by rintro ⟨⟩) keeps.procs keeps.last⟩
  | noChild =>
    cases goes
    exact ⟨listed, .keeps (by rintro ⟨⟩) rfl rfl⟩
  | sleeps =>
    obtain ⟨_, -, goes⟩ := bind_eq_ok.mp goes
    obtain ⟨procs, last, nobody⟩ := modify_yield _ goes
    exact ⟨listed.vacate procs last nobody, .keeps (by rintro ⟨⟩) procs last⟩

end

theorem execve_keeps {executed : Sched.Executed} (call : s.doExecve pid executed = .ok s') :
    ListKept s s' ∧ s'.hart = s.hart := by
  cases executed with
  | noFile =>
    cases call
    exact ⟨.refl s, rfl⟩
  | noStack =>
    obtain ⟨_, -, goes⟩ := bind_eq_ok.mp call
    cases goes
    exact ⟨.leaveLocked s pid, rfl⟩
  | loaded =>
    obtain ⟨_, -, goes⟩ := bind_eq_ok.mp call
    cases goes
    exact ⟨.modify s pid _ fun _ => rfl, rfl⟩

/-- Every step keeps the one chosen last on the list, and moves the list in one of the five
ways. -/
theorem SchedStep.listed {event : SchedEvent} (moves : SchedStep s event s') (listed : Listed s) :
    Listed s' ∧ ListMove s s' event := by
  cases moves with
  | schedule place call => exact loop_body_listed listed place call
  | enter place =>
    rename_i pid
    have cleared : ListKept s (s.modify pid fun task => { task with waitingChan := none }) :=
      .modify s pid _ id
    refine ⟨listed.keep ⟨rfl, rfl, rfl, cleared.normal⟩ fun other occupies => ?_,
      .keeps (by rintro ⟨⟩) rfl rfl⟩
    rw [place]
    exact occupies
  | switch place => exact ⟨listed.vacate rfl rfl rfl, .keeps (by rintro ⟨⟩) rfl rfl⟩
  | timer place call =>
    obtain ⟨keeps, same | nobody⟩ := timer_keeps call
    · exact ⟨listed.keep keeps fun _ occupies => same ▸ occupies,
        .keeps (by rintro ⟨⟩) keeps.procs keeps.last⟩
    · exact ⟨listed.vacate keeps.procs keeps.last nobody,
        .keeps (by rintro ⟨⟩) keeps.procs keeps.last⟩
  | external place call =>
    obtain ⟨keeps, same⟩ := wakeup_keeps call
    exact ⟨listed.keep keeps fun _ occupies => same ▸ occupies,
      .keeps (by rintro ⟨⟩) keeps.procs keeps.last⟩
  | trap place =>
    refine ⟨listed.keep ⟨rfl, rfl, rfl, fun _ => id⟩ fun other occupies => ?_,
      .keeps (by rintro ⟨⟩) rfl rfl⟩
    rw [place]
    exact occupies
  | resume place =>
    refine ⟨listed.keep ⟨rfl, rfl, rfl, fun _ => id⟩ fun other occupies => ?_,
      .keeps (by rintro ⟨⟩) rfl rfl⟩
    obtain ⟨current, -, -⟩ := listed.occupant _ (kernel_occupies place)
    rw [kernel_occupies place, ← current]
    exact occupies
  | sleep place call =>
    obtain ⟨_, -, goes⟩ := bind_eq_ok.mp call
    obtain ⟨procs, last, nobody⟩ := modify_yield _ goes
    exact ⟨listed.vacate procs last nobody, .keeps (by rintro ⟨⟩) procs last⟩
  | wakeup place call =>
    obtain ⟨keeps, same⟩ := wakeup_keeps call
    exact ⟨listed.keep keeps fun _ occupies => same ▸ occupies,
      .keeps (by rintro ⟨⟩) keeps.procs keeps.last⟩
  | schedYield place call =>
    obtain ⟨procs, last, nobody⟩ := modify_yield _ call
    exact ⟨listed.vacate procs last nobody, .keeps (by rintro ⟨⟩) procs last⟩
  | fork _ fresh call => exact fork_listed listed fresh call
  | execve place call =>
    obtain ⟨keeps, same⟩ := execve_keeps call
    exact ⟨listed.keep keeps fun _ occupies => same ▸ occupies,
      .keeps (by rintro ⟨⟩) keeps.procs keeps.last⟩
  | exit place call => exact exit_listed listed call
  | wait place possible call => exact wait_listed listed place possible call

end

theorem boot_listed : Listed .boot where
  distinct := List.nodup_singleton 1
  positive := by decide
  last := .inl rfl
  occupant := fun _ occupies => nomatch occupies

variable {answers : List (Option Nat)}

theorem SchedRun.listed {allowed : Sched → SchedEvent → Prop} (run : SchedRun allowed s) :
    Listed s := by
  induction run with
  | boot => exact boot_listed
  | step run meets moves ih => exact (moves.listed ih).1

/-! ## The interval between two choices of a process -/

/-- A stretch of a run with the answers of the scheduler in it. The processes `p` and `q` are on
the list throughout, and `q` can run at every call up to the one that returns it. -/
inductive Passage (p q : Nat) (s : Sched) : List (Option Nat) → Sched → Prop where
  | start (listed : p ∈ s.procs ∧ q ∈ s.procs) : Passage p q s [] s
  | call {s₁ s₂ : Sched} {answers : List (Option Nat)} {answer : Option Nat}
      (passage : Passage p q s answers s₁) (returns : s₁.scheduler = .ok answer)
      (ready : some q ∈ answers ∨ (s₁.task q).status.runnable = true)
      (moves : SchedStep s₁ .schedule s₂) (listed : p ∈ s₂.procs ∧ q ∈ s₂.procs) :
      Passage p q s (answers ++ [answer]) s₂
  | other {s₁ s₂ : Sched} {answers : List (Option Nat)} {event : SchedEvent}
      (passage : Passage p q s answers s₁) (between : event ≠ .schedule)
      (moves : SchedStep s₁ event s₂) (listed : p ∈ s₂.procs ∧ q ∈ s₂.procs) :
      Passage p q s answers s₂

section

variable {p q : Nat}

/-- `q` will be read before `p`. -/
def Ahead (p q : Nat) (s : Sched) : Prop :=
  s.last ≠ 0 ∧ [q, p].Sublist (order s.last s.procs)

/-- The scheduler that returns another process does not pass `q`. -/
theorem Ahead.chosen (ahead : Ahead p q s) (listed : Listed s)
    (chooses : s.scheduler = .ok (some pid)) (ready : (s.task q).status.runnable = true)
    (different : q ≠ pid) : pid ≠ p ∧ [q, p].Sublist (order pid s.procs) := by
  obtain ⟨set, ordered⟩ := ahead
  have member := listed.last.resolve_left set
  rw [scheduler_eq listed.last, Sched.reading, if_neg set] at chooses
  obtain ⟨passed, left, reads, idles, -⟩ := pick_first chooses
  have nodup := order_nodup member listed.distinct
  rw [reads] at ordered nodup
  have waits : q ∉ passed := by
    intro inside
    rw [idles q inside] at ready
    cases ready
  have later := pair_left ordered waits different
  constructor
  · rintro rfl
    have again : pid ∈ left := later.subset (by simp)
    exact (List.nodup_cons.mp (List.nodup_append.mp nodup).2.1).1 again
  · rw [order_advance member listed.distinct reads]
    exact later.trans (List.sublist_append_left _ _)

/-- Every step but a choice keeps the order. -/
theorem Ahead.keep (ahead : Ahead p q s) (listed : Listed s) {event : SchedEvent}
    (move : ListMove s s' event) (other : event ≠ .schedule)
    (stay : p ∈ s'.procs ∧ q ∈ s'.procs) : Ahead p q s' := by
  obtain ⟨set, ordered⟩ := ahead
  have member := listed.last.resolve_left set
  cases move with
  | keeps _ procs last => exact ⟨last ▸ set, by rwa [last, procs]⟩
  | joins _ pidSet new procs last =>
    refine ⟨last ▸ set, ?_⟩
    rw [last, procs]
    refine ordered.trans (order_cons member listed.distinct ?_)
    rintro rfl
    exact new member
  | leaves _ inside different procs last =>
    rename_i pid _
    refine ⟨last ▸ set, ?_⟩
    rw [last, procs, order_erase member listed.distinct different]
    -- Neither of the two is the process that left.
    have gone : pid ∉ [q, p] := by
      have out : pid ∉ s'.procs := by
        rw [procs]
        exact listed.distinct.not_mem_erase
      intro among
      rcases List.mem_cons.mp among with rfl | among
      · exact out stay.2
      · rw [List.mem_singleton.mp among] at out
        exact out stay.1
    rw [← List.erase_of_not_mem gone]
    exact ordered.erase pid
  | idle => exact absurd rfl other
  | chooses => exact absurd rfl other

theorem Passage.ahead (passage : Passage p q s answers s') (listed : Listed s) (ahead : Ahead p q s)
    (notP : some p ∉ answers) (notQ : some q ∉ answers) : Listed s' ∧ Ahead p q s' := by
  induction passage with
  | start => exact ⟨listed, ahead⟩
  | other passage between moves stay ih =>
    obtain ⟨listed₁, ahead₁⟩ := ih notP notQ
    obtain ⟨listed₂, move⟩ := moves.listed listed₁
    exact ⟨listed₂, ahead₁.keep listed₁ move between stay⟩
  | call passage returns ready moves stay ih =>
    rename_i answers answer
    simp only [List.mem_append, List.mem_singleton, not_or] at notP notQ
    obtain ⟨listed₁, ahead₁⟩ := ih notP.1 notQ.1
    obtain ⟨listed₂, move⟩ := moves.listed listed₁
    refine ⟨listed₂, ?_⟩
    cases move with
    | keeps other => exact absurd rfl other
    | joins other => exact absurd rfl other
    | leaves other => exact absurd rfl other
    | idle none procs last => exact ⟨last ▸ ahead₁.1, by rw [last, procs]; exact ahead₁.2⟩
    | chooses chosen procs last =>
      rename_i pid
      obtain rfl := Except.ok.inj (chosen.symm.trans returns)
      have different : q ≠ pid := fun same => notQ.2 (congrArg some same)
      obtain ⟨-, ordered⟩ :=
        ahead₁.chosen listed₁ chosen (ready.resolve_left notQ.1) different
      refine ⟨?_, by rwa [last, procs]⟩
      rw [last]
      rintro rfl
      exact listed₁.positive (scheduler_spec chosen).1

end

theorem Passage.starts_listed {p q : Nat} (passage : Passage p q s answers s') :
    p ∈ s.procs ∧ q ∈ s.procs := by
  induction passage with
  | start listed => exact listed
  | call _ _ _ _ _ ih => exact ih
  | other _ _ _ _ ih => exact ih

/-- A process that is chosen again has not overtaken one that could run. -/
theorem no_overtaking {s₀ s₁ : Sched} {p q : Nat} (listed : Listed s)
    (first : s.scheduler = .ok (some p)) (starts : SchedStep s .schedule s₀)
    (passage : Passage p q s₀ answers s₁) (notP : some p ∉ answers)
    (second : s₁.scheduler = .ok (some p))
    (ready : some q ∈ answers ∨ (s₁.task q).status.runnable = true) (different : q ≠ p) :
    some q ∈ answers := by
  by_contra notQ
  obtain ⟨listed₀, move⟩ := starts.listed listed
  obtain ⟨memberP, memberQ⟩ := passage.starts_listed
  have last : s₀.last = p := by
    cases move with
    | keeps other => exact absurd rfl other
    | joins other => exact absurd rfl other
    | leaves other => exact absurd rfl other
    | idle none =>
      rw [first] at none
      cases none
    | chooses chosen procs last =>
      rw [first] at chosen
      cases chosen
      exact last
  have ahead : Ahead p q s₀ := by
    refine ⟨?_, ?_⟩
    · rw [last]
      rintro rfl
      exact listed₀.positive memberP
    · rw [last]
      exact pair_cursor memberP listed₀.distinct memberQ different
  obtain ⟨listed₁, ahead₁⟩ := passage.ahead listed₀ ahead notP notQ
  exact (ahead₁.chosen listed₁ second (ready.resolve_left notQ) different).1 rfl

/-- An answer of the scheduler is NULL exactly if no process on the list can run. -/
theorem scheduler_none_iff (listed : Listed s) {found : Option Nat}
    (returns : s.scheduler = .ok found) :
    found = none ↔ ∀ pid ∈ s.procs, (s.task pid).status.runnable = false := by
  have inReading : ∀ pid, pid ∈ s.reading ↔ pid ∈ s.procs := by
    intro pid
    rw [Sched.reading]
    split
    · exact Iff.rfl
    · rename_i set
      exact mem_order (listed.last.resolve_left set) listed.distinct
  constructor
  · rintro rfl pid member
    rw [scheduler_eq listed.last] at returns
    exact pick_none returns pid ((inReading pid).mpr member)
  · intro idle
    cases found with
    | none => rfl
    | some pid =>
      obtain ⟨member, runnable⟩ := scheduler_spec returns
      rw [idle pid member] at runnable
      cases runnable

/-- `init` forks and the child is chosen; then both yield in turn until the child is to be chosen
again. -/
theorem child_and_init_yield : ∃ s s₀ : Sched, SchedRun (fun _ _ => True) s ∧
    s.procs = [2, 1] ∧ s.scheduler = .ok (some 2) ∧ SchedStep s .schedule s₀ ∧
    ∃ s₁, Passage 2 1 s₀ ([] ++ [some 1]) s₁ ∧ s₁.scheduler = .ok (some 2) ∧
      (s₁.task 1).status.runnable = true := by
  have user := init_runs (fun _ _ => True) trivial (fun _ => trivial) fun _ => trivial
  have trapped := SchedRun.step user trivial (.trap rfl)
  have forked := SchedRun.step trapped trivial
    (show SchedStep _ (.fork (.child 2)) _ from .fork rfl ⟨nofun, by decide⟩ rfl)
  have run := SchedRun.step forked trivial (.switch rfl)
  refine ⟨_, _, run, rfl, rfl, .schedule rfl rfl, ?_⟩
  -- The child comes, yields and goes, then `init` is chosen and does the same.
  exact ⟨_, .other (.other (.other (.call (.other (.other (.other (.start (by decide))
    (by nofun) (.enter rfl) (by decide))
    (by nofun) (.schedYield rfl rfl) (by decide))
    (by nofun) (.switch rfl) (by decide))
    rfl (.inr rfl) (.schedule rfl rfl) (by decide))
    (by nofun) (.enter rfl) (by decide))
    (by nofun) (.schedYield rfl rfl) (by decide))
    (by nofun) (.switch rfl) (by decide), rfl, rfl⟩

/-- In every state of every run, the process chosen last is NULL or on the list; an answer of
the scheduler is NULL exactly if no process on the list can run, and it does answer as long as no
step has kept a lock of a process; and of two processes that stay on the list one is not chosen
twice while the other can run and is not chosen. -/
theorem round_robin {s : Sched} (run : SchedRun (fun _ _ => True) s) :
    (s.last = 0 ∨ s.last ∈ s.procs) ∧
    (∀ found, s.scheduler = .ok found →
      (found = none ↔ ∀ pid ∈ s.procs, (s.task pid).status.runnable = false)) ∧
    (SchedRun Harmless s → ∃ found, s.scheduler = .ok found) ∧
    ∀ (p q : Nat) (s₀ s₁ : Sched) (answers : List (Option Nat)),
      s.scheduler = .ok (some p) → SchedStep s .schedule s₀ → Passage p q s₀ answers s₁ →
      some p ∉ answers → s₁.scheduler = .ok (some p) →
      some q ∈ answers ∨ (s₁.task q).status.runnable = true → q ≠ p → some q ∈ answers := by
  have listed := run.listed
  refine ⟨listed.last, fun found => scheduler_none_iff listed, fun harmless => ?_,
    fun p q s₀ s₁ answers first starts passage => no_overtaking listed first starts passage⟩
  rw [scheduler_eq listed.last]
  exact pick_returns harmless.orderly.unlocked s.reading

/-- Between the two choices of the child `init` is chosen. -/
theorem init_not_overtaken : ∃ (s s₀ s₁ : Sched) (answers : List (Option Nat)),
    s.procs = [2, 1] ∧ s.scheduler = .ok (some 2) ∧ SchedStep s .schedule s₀ ∧
      Passage 2 1 s₀ answers s₁ ∧ s₁.scheduler = .ok (some 2) ∧
      (s.last = 0 ∨ s.last ∈ s.procs) ∧ some 1 ∈ answers := by
  obtain ⟨s, s₀, run, procs, first, starts, s₁, passage, second, runnable⟩ := child_and_init_yield
  obtain ⟨last, -, -, fair⟩ := round_robin run
  exact ⟨s, s₀, s₁, _, procs, first, starts, passage, second, last,
    fair 2 1 s₀ s₁ _ first starts passage (by decide) second (.inr runnable) (by decide)⟩

end Mftt
