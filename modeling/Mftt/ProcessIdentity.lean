import Mftt.ProcessTable
import Mftt.SchedulingRuns

/-!
# A number for every process

The bitmap, the table, the numbers in the objects and the process list agree after every call,
also after a `do_fork` that fails for want of a page directory: the process it leaves behind is
on the list and keeps its number. What `do_wait` frees is a stopped child of the current process;
the process chosen last is the current one, so it is never freed.
-/

namespace Mftt

open Function List

namespace ProcTable

/-- The records of identity agree, and only allocated processes are recorded. -/
structure Identified (t : ProcTable) : Prop where
  distinct : t.procs.Nodup
  allocated : ∀ address, address ∈ t.allocated ↔ address ∈ t.procs
  positive : 0 ∉ t.procs
  range : ∀ address ∈ t.procs, 1 ≤ (t.object address).pid ∧ (t.object address).pid < MAX_PROC
  entry : ∀ address ∈ t.procs, t.table (t.object address).pid = address
  listed : ∀ pid, t.table pid ≠ 0 → t.table pid ∈ t.procs ∧ (t.object (t.table pid)).pid = pid
  zero : checkBit t.bitmap 0 0 = true
  bits : ∀ pid, 1 ≤ pid → pid < MAX_PROC → (checkBit t.bitmap 0 pid = true ↔ t.table pid ≠ 0)
  childrenDistinct : ∀ address ∈ t.procs, (t.object address).children.Nodup
  children : ∀ address ∈ t.procs, ∀ child ∈ (t.object address).children,
    child ∈ t.procs ∧ (t.object child).parent = address
  last : t.last = 0 ∨ t.last ∈ t.procs
  current : t.current ≠ 0 → t.current = t.last ∧ (t.object t.current).status.normal = true

variable {t t' : ProcTable} {address child : Nat}

theorem modify_self (t : ProcTable) (address : Nat) (change : ProcObject → ProcObject) :
    (t.modify address change).object address = change (t.object address) :=
  update_self ..

theorem modify_of_ne (t : ProcTable) {other : Nat} (change : ProcObject → ProcObject)
    (different : other ≠ address) : (t.modify address change).object other = t.object other :=
  update_of_ne different ..

/-- Two objects with the same number, parent and children. -/
structure SameIdentity (before after : ProcObject) : Prop where
  pid : after.pid = before.pid
  parent : after.parent = before.parent
  children : after.children = before.children

theorem SameIdentity.refl (proc : ProcObject) : SameIdentity proc proc := ⟨rfl, rfl, rfl⟩

/-- Only the status, the locks, the choice and the current process changed. -/
theorem Identified.restatus (identified : t.Identified)
    (same : ∀ address, SameIdentity (t.object address) (t'.object address))
    (procs : t'.procs = t.procs) (allocated : t'.allocated = t.allocated)
    (bitmap : t'.bitmap = t.bitmap) (table : t'.table = t.table)
    (last : t'.last = 0 ∨ t'.last ∈ t.procs)
    (current : t'.current ≠ 0 →
      t'.current = t'.last ∧ (t'.object t'.current).status.normal = true) : t'.Identified where
  distinct := procs ▸ identified.distinct
  allocated := by
    rw [procs, allocated]
    exact identified.allocated
  positive := procs ▸ identified.positive
  range := by
    intro address member
    rw [(same address).pid]
    exact identified.range address (procs ▸ member)
  entry := by
    intro address member
    rw [(same address).pid, table]
    exact identified.entry address (procs ▸ member)
  listed := by
    intro pid set
    rw [table] at set ⊢
    rw [procs, (same _).pid]
    exact identified.listed pid set
  zero := bitmap ▸ identified.zero
  bits := by
    rw [bitmap, table]
    exact identified.bits
  childrenDistinct := by
    intro address member
    rw [(same address).children]
    exact identified.childrenDistinct address (procs ▸ member)
  children := by
    intro address member child inside
    rw [(same address).children] at inside
    rw [procs, (same child).parent]
    exact identified.children address (procs ▸ member) child inside
  last := procs ▸ last
  current := current

/-- A change of one process that keeps its identity. -/
theorem modify_same (t : ProcTable) (address : Nat) (change : ProcObject → ProcObject)
    (keeps : SameIdentity (t.object address) (change (t.object address))) (other : Nat) :
    SameIdentity (t.object other) ((t.modify address change).object other) := by
  by_cases same : other = address
  · subst same
    rw [modify_self]
    exact keeps
  · rw [modify_of_ne t change same]
    exact .refl _

theorem setStatus_same (t : ProcTable) (address : Nat) (change : ProcStatus → ProcStatus)
    (other : Nat) :
    SameIdentity (t.object other) ((t.setStatus address change).object other) :=
  modify_same t address (fun proc => { proc with status := change proc.status }) ⟨rfl, rfl, rfl⟩
    other

theorem leaveLocked_same (t : ProcTable) (address other : Nat) :
    SameIdentity (t.object other) ((t.leaveLocked address).object other) :=
  modify_same t address (fun proc => { proc with locked := true }) ⟨rfl, rfl, rfl⟩ other

theorem Identified.current_listed (identified : t.Identified) (busy : t.current ≠ 0) :
    t.current ∈ t.procs := by
  obtain ⟨last, -⟩ := identified.current busy
  rcases identified.last with none | member
  · exact absurd (last.trans none) busy
  · exact last ▸ member

theorem setStatus_normal (t : ProcTable) (address : Nat) (change : ProcStatus → ProcStatus)
    (keeps : ∀ status, status.normal = true → (change status).normal = true) {other : Nat}
    (normal : (t.object other).status.normal = true) :
    ((t.setStatus address change).object other).status.normal = true := by
  by_cases same : other = address
  · subst same
    rw [setStatus, modify_self]
    exact keeps _ normal
  · rwa [setStatus, modify_of_ne t _ same]

theorem schedule_identified (identified : t.Identified) (call : t.schedule = .ok t') :
    t'.Identified := by
  obtain ⟨found, chooses, goes⟩ := bind_eq_ok.mp call
  cases found with
  | none =>
    cases goes
    exact identified
  | some chosen =>
    obtain ⟨member, runnable⟩ := scheduler_spec chooses
    have normal : (t.object chosen).status.normal = true := by
      simp only [ProcStatus.runnable, Bool.and_eq_true] at runnable
      exact runnable.1.2
    cases goes
    exact identified.restatus (setStatus_same t chosen .dispatch) rfl rfl rfl rfl (.inr member)
      fun _ => ⟨rfl, setStatus_normal t chosen .dispatch (fun _ => id) normal⟩

theorem preempt_identified (identified : t.Identified) (call : t.preempt = .ok t') :
    t'.Identified := by
  obtain ⟨_, -, goes⟩ := bind_eq_ok.mp call
  cases goes
  exact identified.restatus (setStatus_same t t.current .preempt) rfl rfl rfl rfl
    identified.last fun busy => absurd rfl busy

/-- A process that exits has a parent, another process, and no children. -/
theorem exit_cases (call : t.doExit address = .ok t') :
    (t.object address).parent ≠ 0 ∧ (t.object address).parent ≠ address ∧
      (t.object address).children = [] ∧
      t' = { (t.setStatus address fun _ => { stop := true }).setStatus
        (t.object address).parent .wake with current := 0 } := by
  obtain ⟨_, -, goes⟩ := bind_eq_ok.mp call
  split at goes
  · cases goes
  · obtain ⟨_, orphan, goes⟩ := bind_eq_ok.mp goes
    split at goes
    · cases goes
    · rename_i other
      obtain ⟨_, -, goes⟩ := bind_eq_ok.mp goes
      split at goes
      · cases goes
      · rename_i childless
        cases goes
        exact ⟨assert_eq_ok.mp orphan, other, not_not.mp childless, rfl⟩

theorem exit_same (call : t.doExit address = .ok t') (other : Nat) :
    SameIdentity (t.object other) (t'.object other) := by
  obtain ⟨-, -, -, rfl⟩ := exit_cases call
  have first := setStatus_same t address (fun _ => { stop := true }) other
  have second := setStatus_same (t.setStatus address fun _ => { stop := true })
    (t.object address).parent .wake other
  exact ⟨second.pid.trans first.pid, second.parent.trans first.parent,
    second.children.trans first.children⟩

theorem exit_identified (identified : t.Identified) (call : t.doExit address = .ok t') :
    t'.Identified := by
  have same := exit_same call
  obtain ⟨-, -, -, rfl⟩ := exit_cases call
  exact identified.restatus same rfl rfl rfl rfl identified.last fun busy => absurd rfl busy

/-! ## A new process -/

variable {pid parent : Nat} {pageDir noHang : Bool} {waitfor : Int} {value : Option Int}

theorem procAlloc_spec (identified : t.Identified)
    (allocates : t.procAlloc address = some (pid, t')) :
    1 ≤ pid ∧ pid < MAX_PROC ∧ t.table pid = 0 ∧ t' = { t with
      object := update t.object address { pid := pid }
      allocated := insert address t.allocated
      procs := address :: t.procs
      bitmap := setBit t.bitmap 0 pid
      table := update t.table pid address } := by
  rw [procAlloc] at allocates
  rcases set_first_unset_bit_spec t.bitmap 0 1 0 with
    ⟨r, first, -, below, clear, -, sets⟩ | ⟨none, -, -⟩
  · have small : r < 32 := below
    simp only [show MAX_PROC / 32 + (if MAX_PROC % 32 ≠ 0 then 1 else 0) = 1 from rfl, first,
      sets] at allocates
    rw [if_neg (by omega)] at allocates
    obtain ⟨rfl, rfl⟩ := Prod.mk.inj (Option.some.inj allocates)
    have positive : 1 ≤ r := by
      rcases Nat.eq_zero_or_pos r with rfl | positive
      · rw [identified.zero] at clear
        cases clear
      · exact positive
    refine ⟨positive, small, ?_, rfl⟩
    by_contra taken
    rw [(identified.bits r positive small).mpr taken] at clear
    cases clear
  · simp only [show MAX_PROC / 32 + (if MAX_PROC % 32 ≠ 0 then 1 else 0) = 1 from rfl, none]
      at allocates
    rw [if_pos trivial] at allocates
    cases allocates

/-- The new process has its number, no children yet, and no parent that lists it. -/
theorem procAlloc_identified (identified : t.Identified) (valid : address ≠ 0)
    (fresh : address ∉ t.allocated) (allocates : t.procAlloc address = some (pid, t')) :
    t'.Identified := by
  obtain ⟨positive, small, unused, rfl⟩ := procAlloc_spec identified allocates
  have new : address ∉ t.procs := fun member => fresh ((identified.allocated address).mpr member)
  have old : ∀ other ∈ t.procs, update t.object address { pid := pid } other =
      t.object other := by
    intro other member
    refine update_of_ne ?_ ..
    rintro rfl
    exact new member
  have self : update t.object address ({ pid := pid } : ProcObject) address =
      { pid := pid } := update_self ..
  -- A process of the list has another number.
  have otherPid : ∀ other ∈ t.procs, (t.object other).pid ≠ pid := by
    rintro other member rfl
    rw [identified.entry other member] at unused
    exact identified.positive (unused ▸ member)
  constructor
  case distinct => exact nodup_cons.mpr ⟨new, identified.distinct⟩
  case allocated =>
    intro other
    simp only [Finset.mem_insert, mem_cons, identified.allocated]
  case positive =>
    intro member
    rcases mem_cons.mp member with same | member
    · exact valid same.symm
    · exact identified.positive member
  case range =>
    intro other member
    rcases mem_cons.mp member with rfl | member
    · simp only [self]
      exact ⟨positive, small⟩
    · simp only [old other member]
      exact identified.range other member
  case entry =>
    intro other member
    rcases mem_cons.mp member with rfl | member
    · simp only [self]
      exact update_self ..
    · simp only [old other member]
      rw [update_of_ne (otherPid other member)]
      exact identified.entry other member
  case listed =>
    intro other set
    by_cases same : other = pid
    · subst same
      simp only [update_self]
      exact ⟨mem_cons_self, trivial⟩
    · simp only [update_of_ne same] at set ⊢
      obtain ⟨member, number⟩ := identified.listed other set
      rw [old _ member]
      exact ⟨mem_cons_of_mem _ member, number⟩
  case zero =>
    show checkBit (setBit t.bitmap 0 pid) 0 0 = true
    rw [check_bit_set_bit, identified.zero, Bool.or_true]
  case bits =>
    intro other low high
    show checkBit (setBit t.bitmap 0 pid) 0 other = true ↔ _
    rw [check_bit_set_bit]
    by_cases same : other = pid
    · subst same
      simp [valid]
    · simp only [same, update_of_ne same]
      exact identified.bits other low high
  case childrenDistinct =>
    intro other member
    rcases mem_cons.mp member with rfl | member
    · simp only [self]
      exact nodup_nil
    · simp only [old other member]
      exact identified.childrenDistinct other member
  case children =>
    intro other member child inside
    rcases mem_cons.mp member with rfl | member
    · simp only [self] at inside
      exact absurd inside not_mem_nil
    · simp only [old other member] at inside
      obtain ⟨listed, parent⟩ := identified.children other member child inside
      simp only [old child listed]
      exact ⟨mem_cons_of_mem _ listed, parent⟩
  case last => exact identified.last.imp_right (mem_cons_of_mem address)
  case current =>
    intro busy
    obtain ⟨last, normal⟩ := identified.current busy
    refine ⟨last, ?_⟩
    show (update t.object address _ t.current).status.normal = true
    rw [old _ (identified.current_listed busy)]
    exact normal

/-- The end of `do_fork`: the child is put on the list of its parent. -/
def adopt (t : ProcTable) (parent child : Nat) (status : ProcStatus) : ProcTable :=
  { (t.modify child fun proc => { proc with parent := parent, status := status }).modify parent
    fun proc => { proc with children := child :: proc.children } with current := 0 }

/-- What the two changes leave of each object. -/
theorem adopt_fields (different : parent ≠ child) (status : ProcStatus) (address : Nat) :
    let proc := (t.adopt parent child status).object address
    proc.pid = (t.object address).pid ∧
      proc.parent = (if address = child then parent else (t.object address).parent) ∧
      proc.children = (if address = parent then child :: (t.object address).children
        else (t.object address).children) ∧
      proc.status = if address = child then status else (t.object address).status := by
  by_cases isParent : address = parent
  · subst isParent
    simp only [adopt, modify_self, modify_of_ne t _ different, if_neg different, if_true, and_self]
  · simp only [adopt, modify_of_ne _ _ isParent, if_neg isParent]
    by_cases isChild : address = child
    · subst isChild
      simp only [modify_self, if_true, and_self]
    · simp only [modify_of_ne t _ isChild, if_neg isChild, and_self]

theorem adopt_identified (identified : t.Identified) (listed : child ∈ t.procs)
    (different : parent ≠ child) (orphan : ∀ address ∈ t.procs, child ∉ (t.object address).children)
    (status : ProcStatus) : (t.adopt parent child status).Identified := by
  have fields := adopt_fields (t := t) different status
  refine ⟨identified.distinct, identified.allocated, identified.positive, fun address member => ?_,
    fun address member => ?_, fun pid set => ?_, identified.zero, identified.bits,
    fun address member => ?_, fun address member each inside' => ?_, identified.last,
    fun busy => absurd rfl busy⟩
  · simp only [(fields address).1]
    exact identified.range address member
  · simp only [(fields address).1]
    exact identified.entry address member
  · obtain ⟨member, number⟩ := identified.listed pid set
    refine ⟨member, ?_⟩
    exact (fields _).1.trans number
  · simp only [(fields address).2.2.1]
    split
    · exact nodup_cons.mpr ⟨orphan address member, identified.childrenDistinct address member⟩
    · exact identified.childrenDistinct address member
  · simp only [(fields address).2.2.1] at inside'
    simp only [(fields each).2.1]
    split at inside'
    · rename_i isParent
      rcases mem_cons.mp inside' with rfl | older
      · rw [if_pos rfl]
        exact ⟨listed, isParent.symm⟩
      · obtain ⟨member', parent'⟩ := identified.children address member each older
        refine ⟨member', ?_⟩
        rw [if_neg]
        · exact parent'
        · rintro rfl
          exact orphan address member older
    · obtain ⟨member', parent'⟩ := identified.children address member each inside'
      refine ⟨member', ?_⟩
      rw [if_neg]
      · exact parent'
      · rintro rfl
        exact orphan address member inside'

theorem leaveLocked_identified (identified : t.Identified) (address : Nat) :
    (t.leaveLocked address).Identified := by
  refine identified.restatus (leaveLocked_same t address) rfl rfl rfl rfl identified.last
    fun busy => ?_
  obtain ⟨last, normal⟩ := identified.current busy
  refine ⟨last, ?_⟩
  show ((t.leaveLocked address).object t.current).status.normal = true
  by_cases same : t.current = address
  · subst same
    rw [leaveLocked, modify_self]
    exact normal
  · rw [leaveLocked, modify_of_ne t _ same]
    exact normal

/-- A fork changes the status of the parent; then it stops with the lock held, or allocates a
process and stops with the lock held or goes on to the end. -/
theorem fork_cases {value : Int} (call : t.doFork parent address pageDir = .ok (value, t')) :
    t' = (t.setStatus parent .forked).leaveLocked parent ∨
      ∃ pid made, (t.setStatus parent .forked).procAlloc address = some (pid, made) ∧
        (t' = made.leaveLocked parent ∨
          t' = made.adopt parent address (made.object parent).status.forked) := by
  obtain ⟨_, -, goes⟩ := bind_eq_ok.mp call
  cases allocates : (t.setStatus parent .forked).procAlloc address with
  | none =>
    simp only [allocates] at goes
    cases goes
    exact .inl rfl
  | some made =>
    simp only [allocates] at goes
    refine .inr ⟨made.1, made.2, rfl, ?_⟩
    cases pageDir with
    | false =>
      cases goes
      exact .inl rfl
    | true =>
      cases goes
      exact .inr rfl

theorem forked_normal (status : ProcStatus) (normal : status.normal = true) :
    status.forked.normal = true := by
  rw [ProcStatus.forked]
  split
  · exact normal
  · exact normal

theorem fork_identified (identified : t.Identified) (busy : t.current ≠ 0) (valid : address ≠ 0)
    (fresh : address ∉ t.allocated) {value : Int}
    (call : t.doFork t.current address pageDir = .ok (value, t')) : t'.Identified := by
  obtain ⟨last, normal⟩ := identified.current busy
  have forked : (t.setStatus t.current .forked).Identified :=
    identified.restatus (setStatus_same t t.current .forked) rfl rfl rfl rfl identified.last
      fun _ => ⟨last, setStatus_normal t t.current .forked forked_normal normal⟩
  rcases fork_cases call with rfl | ⟨pid, made, allocates, rfl | rfl⟩
  · exact leaveLocked_identified forked _
  · exact leaveLocked_identified (procAlloc_identified forked valid fresh allocates) _
  · have new := procAlloc_identified forked valid fresh allocates
    obtain ⟨-, -, -, rfl⟩ := procAlloc_spec forked allocates
    have outside : address ∉ t.procs := fun member =>
      fresh ((identified.allocated address).mpr member)
    refine adopt_identified new mem_cons_self ?_ ?_ _
    · rintro rfl
      exact outside (identified.current_listed busy)
    · intro other member inside
      rcases mem_cons.mp member with rfl | older
      · simp only [update_self] at inside
        exact absurd inside not_mem_nil
      · have apart : other ≠ address := by
          rintro rfl
          exact outside older
        simp only [update_of_ne apart] at inside
        rw [(setStatus_same t t.current .forked other).children] at inside
        exact outside (identified.children other older address inside).1

/-! ## A process that is reaped -/

theorem stoppedChild_spec {children : List Nat}
    (finds : t.stoppedChild waitfor children = .ok (some child)) :
    child ∈ children ∧ (t.object child).status = { stop := true } := by
  induction children with
  | nil => cases finds
  | cons first rest ih =>
    obtain ⟨_, -, goes⟩ := bind_eq_ok.mp finds
    split at goes
    · rename_i stopped
      cases goes
      exact ⟨mem_cons_self, stopped.1⟩
    · obtain ⟨member, stopped⟩ := ih goes
      exact ⟨mem_cons_of_mem _ member, stopped⟩

/-- What is left of each object when a child leaves the list of its parent. -/
theorem drop_child_same (t : ProcTable) (address child other : Nat) :
    ((t.dropChild address child).object other).pid = (t.object other).pid ∧
      ((t.dropChild address child).object other).parent = (t.object other).parent ∧
      ((t.dropChild address child).object other).status = (t.object other).status ∧
      ((t.dropChild address child).object other).children =
        if other = address then (t.object other).children.erase child
        else (t.object other).children := by
  by_cases self : other = address
  · subst self
    rw [dropChild, modify_self, if_pos rfl]
    exact ⟨rfl, rfl, rfl, rfl⟩
  · rw [dropChild, modify_of_ne t _ self, if_neg self]
    exact ⟨rfl, rfl, rfl, rfl⟩

/-- A child other than the process chosen last leaves all the records. -/
theorem reap_identified (identified : t.Identified) (member : address ∈ t.procs)
    (inside : child ∈ (t.object address).children) (spared : child ≠ t.last)
    (different : child ≠ address) (call : t.reap address child = .ok (pid, t')) :
    t'.Identified := by
  obtain ⟨listed, parent⟩ := identified.children address member child inside
  obtain ⟨positive, small⟩ := identified.range child listed
  obtain ⟨_, -, goes⟩ := bind_eq_ok.mp call
  cases goes
  have same := drop_child_same t address child
  -- Only the parent lists the child, and no longer.
  have children : ∀ other ∈ t.procs, ((t.dropChild address child).object other).children.Nodup ∧
      ∀ each ∈ ((t.dropChild address child).object other).children,
        each ∈ (t.object other).children ∧ each ≠ child := by
    intro other inList
    have distinct := identified.childrenDistinct other inList
    rw [(same other).2.2.2]
    split
    · refine ⟨distinct.erase child, fun each among => ⟨mem_of_mem_erase among, ?_⟩⟩
      rintro rfl
      exact distinct.not_mem_erase among
    · rename_i self
      refine ⟨distinct, fun each among => ⟨among, ?_⟩⟩
      rintro rfl
      exact self ((identified.children other inList each among).2.symm.trans parent)
  have staying : ∀ other, other ∈ t.procs.erase child ↔ other ≠ child ∧ other ∈ t.procs :=
    fun other => identified.distinct.mem_erase_iff
  have number := (same child).1
  constructor
  case distinct => exact identified.distinct.erase child
  case allocated =>
    intro other
    show other ∈ t.allocated.erase child ↔ other ∈ t.procs.erase child
    rw [staying, Finset.mem_erase, identified.allocated]
  case positive => exact fun zero => identified.positive (mem_of_mem_erase zero)
  case range =>
    intro other inList
    simp only [(same other).1]
    exact identified.range other (mem_of_mem_erase inList)
  case entry =>
    intro other inList
    obtain ⟨apart, before⟩ := (staying other).mp inList
    simp only [(same other).1, number]
    rw [update_of_ne]
    · exact identified.entry other before
    · intro equal
      apply apart
      rw [← identified.entry other before, equal, identified.entry child listed]
  case listed =>
    intro other set
    simp only [number] at set ⊢
    by_cases equal : other = (t.object child).pid
    · rw [equal, update_self] at set
      exact absurd rfl set
    · rw [update_of_ne equal] at set ⊢
      obtain ⟨before, pidOf⟩ := identified.listed other set
      refine ⟨(staying _).mpr ⟨?_, before⟩, (same _).1.trans pidOf⟩
      intro isChild
      exact equal (pidOf.symm.trans (congrArg (fun a => (t.object a).pid) isChild))
  case zero =>
    show checkBit (clearBit t.bitmap 0 _) 0 0 = true
    rw [check_bit_clear_bit, identified.zero, Bool.and_true]
    refine decide_eq_true ?_
    rw [number]
    omega
  case bits =>
    intro other low high
    show checkBit (clearBit t.bitmap 0 _) 0 other = true ↔ update t.table _ 0 other ≠ 0
    rw [check_bit_clear_bit, number]
    by_cases equal : other = (t.object child).pid
    · simp [equal]
    · simp only [equal, ne_eq, update_of_ne equal]
      exact identified.bits other low high
  case childrenDistinct =>
    exact fun other inList => (children other (mem_of_mem_erase inList)).1
  case children =>
    intro other inList each among
    have before := mem_of_mem_erase inList
    obtain ⟨among', apart⟩ := (children other before).2 each among
    obtain ⟨listed', parent'⟩ := identified.children other before each among'
    exact ⟨(staying each).mpr ⟨apart, listed'⟩, (same each).2.1.trans parent'⟩
  case last =>
    exact identified.last.imp_right fun before => (staying _).mpr ⟨Ne.symm spared, before⟩
  case current =>
    intro busy
    obtain ⟨last, normal⟩ := identified.current busy
    exact ⟨last, (congrArg (·.normal) (same t.current).2.2.1).trans normal⟩

/-- `do_wait` reaps the child that it finds; else it returns with its lock held, or does nothing,
or sleeps. -/
theorem wait_cases (call : t.doWait address waitfor noHang = .ok (value, t')) :
    (∃ child pid, t.stoppedChild waitfor (t.object address).children = .ok (some child) ∧
      t.reap address child = .ok (pid, t')) ∨
    (t.stoppedChild waitfor (t.object address).children = .ok none ∧
      (t' = t.leaveLocked address ∨ t' = t ∨
        t' = { t.setStatus address .park with current := 0 })) := by
  obtain ⟨_, -, goes⟩ := bind_eq_ok.mp call
  obtain ⟨found, finds, goes⟩ := bind_eq_ok.mp goes
  cases found with
  | some child =>
    obtain ⟨⟨pid, reaped⟩, reaps, goes⟩ := bind_eq_ok.mp goes
    cases goes
    exact .inl ⟨child, pid, finds, reaps⟩
  | none =>
    refine .inr ⟨finds, ?_⟩
    dsimp only at goes
    split at goes
    · cases goes
      exact .inl rfl
    · split at goes
      · cases goes
        exact .inr (.inl rfl)
      · cases goes
        exact .inr (.inr rfl)

theorem wait_identified (identified : t.Identified) (busy : t.current ≠ 0)
    (call : t.doWait t.current waitfor noHang = .ok (value, t')) : t'.Identified := by
  obtain ⟨last, normal⟩ := identified.current busy
  rcases wait_cases call with ⟨child, pid, finds, reaps⟩ | ⟨-, rfl | rfl | rfl⟩
  · obtain ⟨inside, stopped⟩ := stoppedChild_spec finds
    have different : child ≠ t.current := by
      rintro rfl
      rw [stopped] at normal
      cases normal
    exact reap_identified identified (identified.current_listed busy) inside (last ▸ different)
      different reaps
  · exact leaveLocked_identified identified _
  · exact identified
  · exact identified.restatus (setStatus_same t t.current .park) rfl rfl rfl rfl identified.last
      fun busy => absurd rfl busy

theorem boot_identified {init : Nat} (valid : init ≠ 0) : (boot init).Identified := by
  constructor
  case distinct => exact nodup_singleton init
  case allocated =>
    simp [boot]
  case positive =>
    intro zero
    exact valid (mem_singleton.mp zero).symm
  case range =>
    intro address member
    obtain rfl := mem_singleton.mp member
    simp [boot, MAX_PROC]
  case entry =>
    intro address member
    obtain rfl := mem_singleton.mp member
    simp [boot]
  case listed =>
    intro pid set
    by_cases one : pid = 1
    · subst one
      simp [boot]
    · simp [boot, one] at set
  case zero =>
    show checkBit (setBit (setBit _ 0 0) 0 1) 0 0 = true
    rfl
  case bits =>
    intro pid low high
    show checkBit (setBit (setBit (fun _ => 0#32) 0 0) 0 1) 0 pid = true ↔ _
    rw [check_bit_set_bit, check_bit_set_bit]
    have clear : checkBit (fun _ => 0#32) 0 pid = false := by
      rw [check_bit_eq]
      exact BitVec.getLsbD_zero
    have nonzero : pid ≠ 0 := by omega
    by_cases one : pid = 1
    · simp [boot, one, valid]
    · simp [boot, one, nonzero, clear]
  case childrenDistinct =>
    intro address member
    obtain rfl := mem_singleton.mp member
    simp [boot]
  case children =>
    intro address member child inside
    obtain rfl := mem_singleton.mp member
    simp [boot] at inside
  case last => exact .inl rfl
  case current => exact fun busy => absurd rfl busy

end ProcTable

/-- The records of identity: for every number the bit is set exactly if the table has an entry,
exactly if one process of the list has the number, and the entry is that process; no two
processes of the list share a number; and nothing recorded has been freed. -/
structure ProcessIdentity (t : ProcTable) : Prop where
  records : ∀ pid, 1 ≤ pid → pid < MAX_PROC →
    (checkBit t.bitmap 0 pid = true ↔ t.table pid ≠ 0) ∧
    (t.table pid ≠ 0 ↔ ∃! address, address ∈ t.procs ∧ (t.object address).pid = pid) ∧
    ∀ address ∈ t.procs, (t.object address).pid = pid → t.table pid = address
  once : t.procs.Nodup
  numbers : ∀ first ∈ t.procs, ∀ second ∈ t.procs,
    (t.object first).pid = (t.object second).pid → first = second
  listAllocated : ∀ address ∈ t.procs, address ∈ t.allocated
  childrenAllocated : ∀ address ∈ t.procs, ∀ child ∈ (t.object address).children,
    child ∈ t.allocated
  tableAllocated : ∀ pid, t.table pid ≠ 0 → t.table pid ∈ t.allocated
  lastAllocated : t.last ≠ 0 → t.last ∈ t.allocated

variable {t : ProcTable} {init : Nat}

theorem ProcTable.Identified.identity (identified : t.Identified) : ProcessIdentity t where
  records := by
    intro pid low high
    refine ⟨identified.bits pid low high, ⟨fun set => ?_, ?_⟩, ?_⟩
    · refine ⟨t.table pid, identified.listed pid set, ?_⟩
      rintro other ⟨member, rfl⟩
      exact (identified.entry other member).symm
    · rintro ⟨address, ⟨member, rfl⟩, -⟩
      rw [identified.entry address member]
      rintro rfl
      exact identified.positive member
    · rintro address member rfl
      exact identified.entry address member
  once := identified.distinct
  numbers := by
    intro first memberFirst second memberSecond same
    rw [← identified.entry first memberFirst, same, identified.entry second memberSecond]
  listAllocated := fun address member => (identified.allocated address).mpr member
  childrenAllocated := fun address member child inside =>
    (identified.allocated child).mpr (identified.children address member child inside).1
  tableAllocated := fun pid set => (identified.allocated _).mpr (identified.listed pid set).1
  lastAllocated := fun set => (identified.allocated _).mpr (identified.last.resolve_left set)

theorem ProcRun.identified (run : ProcRun init t) (valid : init ≠ 0) : t.Identified := by
  induction run with
  | boot => exact ProcTable.boot_identified valid
  | step run moves ih =>
    cases moves with
    | schedule idle call => exact ProcTable.schedule_identified ih call
    | preempt busy call => exact ProcTable.preempt_identified ih call
    | fork busy valid fresh call => exact ProcTable.fork_identified ih busy valid fresh call
    | exit busy call => exact ProcTable.exit_identified ih call
    | wait busy call => exact ProcTable.wait_identified ih busy call

/-- The records of identity agree in every state reached by any sequence of calls. -/
theorem process_identity {init : Nat} (valid : init ≠ 0) {t : ProcTable} (run : ProcRun init t) :
    ProcessIdentity t :=
  (run.identified valid).identity

/-- One more call. -/
theorem ProcRun.next {t' : ProcTable} (run : ProcRun init t) (event : ProcEvent)
    (moves : ProcStep event t t') : ProcRun init t' := .step run moves

/-- `init` has forked a child, which has exited; `init` reaps it, and it is freed. -/
theorem child_reaped : ∃ t t', ProcRun 10 t ∧ ProcessIdentity t ∧ t.procs = [20, 10] ∧
    t.table 2 = 20 ∧ 20 ∈ t.allocated ∧ ProcStep (.wait (-1) false) t t' ∧ ProcessIdentity t' ∧
    t'.procs = [10] ∧ t'.table 2 = 0 ∧ 20 ∉ t'.allocated ∧ checkBit t'.bitmap 0 2 = false := by
  have chosen := (ProcRun.boot : ProcRun 10 _).next .schedule (.schedule rfl rfl)
  have forked := chosen.next (.fork 20 true) (.fork (by decide) (by decide) (by decide) rfl)
  have child := forked.next .schedule (.schedule rfl rfl)
  have exited := child.next .exit (.exit (by decide) rfl)
  have parent := exited.next .schedule (.schedule rfl rfl)
  have reaped := parent.next (.wait (-1) false) (.wait (by decide) rfl)
  exact ⟨_, _, parent, process_identity (by decide) parent, rfl, rfl, by decide,
    .wait (by decide) rfl, process_identity (by decide) reaped, rfl, rfl, by decide, by decide⟩

end Mftt
