import Mathlib.Data.List.Sort
import Mathlib.Data.List.TakeWhile
import Mftt.CircularList
import Mftt.Fault

/-!
# The order of the drivers

`init_driver` sorts the registered drivers by insertion into the circular list of
`os_env.driver_list_head` and then initialises them in the order of that list. A driver is known
by its address, which also stands for the address of its list node. The messages on the console
are left out, and so is the loop that only prints; `init` of a driver is a parameter that gives its
result, and it writes neither the list nor `devfs` nor the flag of a driver.
-/

namespace Mftt

open CircularList Function List

abbrev MAX_DEV_ID : Nat := 32

/-- The fields of `dev_driver_t` that `init_driver` uses. -/
structure Driver where
  devId : Nat
  loadingSequence : Nat
  initialized : Bool := false

/-- The registered drivers: separate objects, in the order of the section, that have not been
initialised yet. -/
structure DriverSection where
  drivers : List Nat
  /-- `&os_env.driver_list_head`. -/
  head : Nat
  driver : Nat → Driver
  distinct : (head :: drivers).Nodup
  nonnull : 0 ∉ drivers
  idBound : ∀ d ∈ drivers, (driver d).devId < MAX_DEV_ID
  waiting : ∀ d ∈ drivers, (driver d).initialized = false

/-- The links of the list, `devfs`, the flags `initialized` and the calls of `init` in order. -/
structure DriverState where
  links : Links Nat
  devfs : Nat → Nat
  initialized : Nat → Bool
  called : List Nat := []

namespace DriverSection

variable (S : DriverSection)

/-- One turn of the loop over the section: the driver is added in front of the first one of the
list that does not load before it, or at the end. -/
def addDriver (turns : Nat) (links : Links Nat) (drv : Nat) : Except Fault (Links Nat) :=
  let dlevel := (S.driver drv).loadingSequence
  if dlevel = 0xFF then .ok links
  else
    match scan links.next S.head
        (fun added => added = 0 ∨ (S.driver added).loadingSequence ≥ dlevel) turns
        (links.next S.head) 0 with
    | none => .error .unfinished
    | some (none, _) => .ok (links.addTail drv S.head)
    | some (some added, _) =>
      if added = 0 then .ok (links.addTail drv S.head) else .ok (links.addTail drv added)

/-- The loop that initialises the drivers of the list, from a node on. -/
def initLoop (init : Nat → Int) : Nat → Nat → DriverState → Except Fault (Int × DriverState)
  | 0, _, _ => .error .unfinished
  | turns + 1, drv, s =>
    if drv = S.head then .ok (0, s)
    else
      let id := (S.driver drv).devId
      assert (id < MAX_DEV_ID) "Driver's device id exceeded max id." >>= fun _ =>
        if id ≠ 0 ∧ s.devfs id ≠ 0 then initLoop init turns (s.links.next drv) s
        else
          let s := { s with
            devfs := if id ≠ 0 then update s.devfs id drv else s.devfs }
          if s.initialized drv then initLoop init turns (s.links.next drv) s
          else
            let s := { s with called := s.called ++ [drv] }
            if init drv ≠ 0 then .ok (1, s)
            else
              initLoop init turns (s.links.next drv)
                { s with initialized := update s.initialized drv true }

/-- `init_driver`. Every list node links to itself at first. -/
def initDriver (init : Nat → Int) : Except Fault (Int × DriverState) :=
  S.drivers.foldlM (S.addDriver (S.drivers.length + 1)) { next := id, prev := id } >>= fun links =>
    S.initLoop init (S.drivers.length + 1) (links.next S.head)
      { links := links
        devfs := fun _ => 0
        initialized := fun d => (S.driver d).initialized }

/-- The drivers that are loaded at all. -/
def loaded : List Nat := S.drivers.filter fun d => (S.driver d).loadingSequence ≠ 0xFF

/-- Drivers in the order of their loading sequence. -/
def Before (first second : Nat) : Prop :=
  (S.driver first).loadingSequence ≤ (S.driver second).loadingSequence

/-- The first driver of a sequence with an id, which `devfs` is to hold. -/
def holder (order : List Nat) (id : Nat) : Option Nat :=
  order.find? fun first => (S.driver first).devId = id

/-- Those of a sequence of drivers that no earlier one with the same id comes before; 0 is no
id. -/
def unskipped (order : List Nat) : List Nat :=
  order.filter fun d => (S.driver d).devId = 0 ∨ S.holder order (S.driver d).devId = some d

instance : DecidableRel S.Before := fun _ _ => Nat.decLe _ _

instance : Std.Total S.Before := ⟨fun _ _ => Nat.le_total _ _⟩

instance : IsTrans Nat S.Before := ⟨fun _ _ _ => Nat.le_trans⟩

variable {S} {links : Links Nat} {order : List Nat}

/-! ## The sorted list -/

/-- No node of the list is at address 0. -/
theorem find_level {level : Nat} (nonnull : 0 ∉ order) :
    order.find? (fun added => added = 0 ∨ (S.driver added).loadingSequence ≥ level) =
      order.find? fun added => level ≤ (S.driver added).loadingSequence := by
  induction order with
  | nil => rfl
  | cons first rest ih =>
    obtain ⟨other, later⟩ := not_or.mp fun zero => nonnull (mem_cons.mpr zero)
    simp only [List.find?_cons, ih later, Ne.symm other, false_or]

variable {drv : Nat} {done : List Nat} {s : DriverState}

/-- A driver is inserted as insertion sort does it. -/
theorem add_driver_circle {turns : Nat} (circle : Circle links S.head order)
    (fresh : drv ∉ S.head :: order) (nonnull : 0 ∉ order) (enough : order.length < turns)
    (loads : (S.driver drv).loadingSequence ≠ 0xFF) :
    ∃ links', S.addDriver turns links drv = .ok links' ∧
      Circle links' S.head (order.orderedInsert S.Before drv) := by
  obtain ⟨met, scans, -⟩ := scan_follows
    (fun added => added = 0 ∨ (S.driver added).loadingSequence ≥ (S.driver drv).loadingSequence)
    0 (follows_next circle) enough
  have split := takeWhile_append_dropWhile (p := fun b => ¬ S.Before drv b) (l := order)
  -- The loop stops at the first driver behind the place, or at the head.
  have first : order.find? (fun added =>
      (S.driver drv).loadingSequence ≤ (S.driver added).loadingSequence) =
      (order.dropWhile fun b => ¬ S.Before drv b).head? := by
    rw [List.find?_eq_head?_dropWhile_not]
    simp only [decide_not]
    rfl
  rw [← split] at circle fresh
  have inserted := circle_insert circle fresh rfl
  rw [← orderedInsert_eq_take_drop, ← first] at inserted
  rw [addDriver, if_neg loads, scans, find_level nonnull]
  cases found : order.find? (fun added =>
      (S.driver drv).loadingSequence ≤ (S.driver added).loadingSequence) with
  | none =>
    rw [found] at inserted
    exact ⟨_, rfl, inserted⟩
  | some added =>
    rw [found] at inserted
    have present : added ≠ 0 := fun zero => nonnull (zero ▸ mem_of_find?_eq_some found)
    dsimp only
    rw [if_neg present]
    exact ⟨_, rfl, inserted⟩

/-- Drivers are added one by one to a list that stays sorted. -/
theorem add_drivers_circle {turns : Nat} {drivers : List Nat} (circle : Circle links S.head order)
    (distinct : (S.head :: (drivers ++ order)).Nodup) (nonnull : 0 ∉ drivers ++ order)
    (enough : (drivers ++ order).length < turns) (sorted : order.Pairwise S.Before) :
    ∃ links' order', drivers.foldlM (S.addDriver turns) links = .ok links' ∧
      Circle links' S.head order' ∧ order'.Pairwise S.Before ∧ order'.Perm
        ((drivers.filter fun d => (S.driver d).loadingSequence ≠ 0xFF) ++ order) := by
  induction drivers generalizing links order with
  | nil => exact ⟨links, order, rfl, circle, sorted, .refl _⟩
  | cons drv rest ih =>
    rw [foldlM_cons]
    by_cases loads : (S.driver drv).loadingSequence = 0xFF
    · have skips : S.addDriver turns links drv = .ok links := if_pos loads
      rw [skips, filter_cons_of_neg (by simp [loads])]
      exact ih circle (distinct.sublist ((sublist_cons_self ..).cons_cons _))
        (fun zero => nonnull (mem_cons_of_mem _ zero)) (Nat.lt_of_succ_lt enough) sorted
    · have moved : (rest ++ order.orderedInsert S.Before drv).Perm (drv :: rest ++ order) :=
        ((perm_orderedInsert ..).append_left rest).trans perm_middle
      have fresh : drv ∉ S.head :: order := by
        intro inside
        have outside := (nodup_cons.mp ((List.Perm.swap ..).nodup_iff.mp distinct)).1
        exact outside (by grind)
      have few : order.length < turns := by
        simp only [length_append] at enough
        omega
      obtain ⟨links', adds, circle'⟩ := add_driver_circle circle fresh
        (fun zero => nonnull (mem_append_right _ zero)) few loads
      obtain ⟨links'', order', folds, circle'', sorted', perm⟩ := ih circle'
        ((moved.cons _).nodup_iff.mpr distinct) (fun zero => nonnull (moved.mem_iff.mp zero))
        (by rwa [moved.length_eq]) (sorted.orderedInsert ..)
      rw [adds, filter_cons_of_pos (by simpa using loads)]
      refine ⟨links'', order', folds, circle'', sorted', perm.trans ?_⟩
      exact ((perm_orderedInsert ..).append_left _).trans perm_middle

/-! ## The initialisation -/

theorem holder_concat (S : DriverSection) (done : List Nat) (drv id : Nat) :
    S.holder (done ++ [drv]) id =
      (S.holder done id).or (if (S.driver drv).devId = id then some drv else none) := by
  rw [holder, List.find?_append, List.find?_singleton]
  simp only [holder, decide_eq_true_eq]

/-- The next driver is skipped exactly if an earlier one has its id. -/
theorem unskipped_concat (fresh : drv ∉ done) :
    S.unskipped (done ++ [drv]) = S.unskipped done ++
      if (S.driver drv).devId ≠ 0 ∧ S.holder done (S.driver drv).devId ≠ none then []
      else [drv] := by
  rw [unskipped, filter_append]
  congr 1
  · refine filter_congr fun d member => decide_eq_decide.mpr (or_congr_right ?_)
    have found : (S.holder done (S.driver d).devId).isSome :=
      List.find?_isSome.mpr ⟨d, member, by simp⟩
    obtain ⟨first, finds⟩ := Option.isSome_iff_exists.mp found
    rw [holder_concat, finds, Option.some_or]
  · rw [filter_singleton, holder_concat]
    cases finds : S.holder done (S.driver drv).devId with
    | none => simp
    | some first =>
      have other : first ≠ drv := fun same => fresh (same ▸ mem_of_find?_eq_some finds)
      by_cases zero : (S.driver drv).devId = 0
      · simp [zero]
      · simp [other]

/-- What the loop has done after a part of the order. -/
structure Done (S : DriverSection) (done : List Nat) (s : DriverState) : Prop where
  called : s.called = S.unskipped done
  devfs : ∀ id ≠ 0, s.devfs id = (S.holder done id).getD 0

/-- How the loop ends: at the end of the order, or at the first `init` that fails. -/
def Ended (S : DriverSection) (init : Nat → Int) (order : List Nat) (ret : Int)
    (s : DriverState) : Prop :=
  ∃ reached rest, order = reached ++ rest ∧ S.Done reached s ∧
    ((ret = 0 ∧ rest = [] ∧ ∀ d ∈ s.called, init d = 0) ∨
      ∃ front failing, ret = 1 ∧ reached.getLast? = some failing ∧ s.called = front ++ [failing] ∧
        (∀ d ∈ front, init d = 0) ∧ init failing ≠ 0)

/-- The entry of an id is empty as long as no driver with it has been met. -/
theorem Done.devfs_eq_zero_iff (after : S.Done done s) (nonnull : 0 ∉ done) {id : Nat}
    (given : id ≠ 0) : s.devfs id = 0 ↔ S.holder done id = none := by
  rw [after.devfs id given]
  cases finds : S.holder done id with
  | none => simp
  | some first =>
    have present : first ≠ 0 := fun zero => nonnull (zero ▸ mem_of_find?_eq_some finds)
    simp [present]

/-- One driver more, which is skipped or takes its id. -/
theorem Done.concat {s' : DriverState} (after : S.Done done s) (nonnull : 0 ∉ done)
    (fresh : drv ∉ done)
    (turn : if (S.driver drv).devId ≠ 0 ∧ s.devfs (S.driver drv).devId ≠ 0 then
        s'.called = s.called ∧ s'.devfs = s.devfs
      else s'.called = s.called ++ [drv] ∧
        s'.devfs = if (S.driver drv).devId ≠ 0 then
          update s.devfs (S.driver drv).devId drv else s.devfs) :
    S.Done (done ++ [drv]) s' := by
  have skips : (S.driver drv).devId ≠ 0 ∧ s.devfs (S.driver drv).devId ≠ 0 ↔
      (S.driver drv).devId ≠ 0 ∧ S.holder done (S.driver drv).devId ≠ none :=
    and_congr_right fun given => (after.devfs_eq_zero_iff nonnull given).not
  simp only [skips] at turn
  constructor
  · rw [unskipped_concat fresh, ← after.called]
    split at turn
    · rename_i skipped
      rw [turn.1, if_pos skipped, append_nil]
    · rename_i takes
      rw [turn.1, if_neg takes]
  · intro id given
    rw [holder_concat]
    split at turn
    · rename_i skipped
      rw [turn.2, after.devfs id given]
      by_cases same : (S.driver drv).devId = id
      · obtain ⟨first, finds⟩ := Option.ne_none_iff_exists'.mp (same ▸ skipped.2)
        rw [finds, Option.some_or]
      · rw [if_neg same, Option.or_none]
    · rename_i takes
      rw [turn.2]
      by_cases same : (S.driver drv).devId = id
      · subst same
        have none : S.holder done (S.driver drv).devId = none :=
          not_not.mp fun some => takes ⟨given, some⟩
        rw [if_pos given, update_self, none, if_pos rfl]
        rfl
      · rw [if_neg same, Option.or_none, ← after.devfs id given]
        split
        · exact update_of_ne (Ne.symm same) ..
        · rfl

/-- The loop over the drivers ends at the first that fails, or behind the last. -/
theorem init_loop_ended {init : Nat → Int} {turns node : Nat} {rest : List Nat}
    (after : S.Done done s) (follows : Follows s.links.next S.head node rest)
    (enough : rest.length < turns) (distinct : (done ++ rest).Nodup) (nonnull : 0 ∉ done ++ rest)
    (bound : ∀ d ∈ rest, (S.driver d).devId < MAX_DEV_ID)
    (waiting : ∀ d ∈ rest, s.initialized d = false) (good : ∀ d ∈ s.called, init d = 0) :
    ∃ ret s', S.initLoop init turns node s = .ok (ret, s') ∧ s'.links = s.links ∧
      S.Ended init (done ++ rest) ret s' := by
  induction rest generalizing turns node done s with
  | nil =>
    obtain ⟨more, rfl⟩ : ∃ more, turns = more + 1 := ⟨turns - 1, by omega⟩
    exact ⟨0, s, if_pos follows, rfl, done, [], rfl, after, .inl ⟨rfl, rfl, good⟩⟩
  | cons drv rest ih =>
    obtain ⟨more, rfl⟩ : ∃ more, turns = more + 1 := ⟨turns - 1, by omega⟩
    obtain ⟨rfl, other, follows⟩ := follows
    have parts : done ++ node :: rest = (done ++ [node]) ++ rest := by simp
    have fresh : node ∉ done := fun inside =>
      (nodup_append.mp distinct).2.2 node inside node mem_cons_self rfl
    have earlier : 0 ∉ done := fun zero => nonnull (mem_append_left _ zero)
    have few : rest.length < more := Nat.lt_of_succ_lt_succ enough
    have bounds := fun d inside => bound d (mem_cons_of_mem node inside)
    have waits := fun d inside => waiting d (mem_cons_of_mem node inside)
    rw [parts] at distinct nonnull ⊢
    rw [initLoop, if_neg other]
    dsimp only
    rw [assert_true _ (bound node mem_cons_self)]
    by_cases skipped : (S.driver node).devId ≠ 0 ∧ s.devfs (S.driver node).devId ≠ 0
    · rw [if_pos skipped]
      exact ih (after.concat earlier fresh (by rw [if_pos skipped]; exact ⟨rfl, rfl⟩)) follows few
        distinct nonnull bounds waits good
    · have next : S.Done (done ++ [node]) { s with
          devfs := if (S.driver node).devId ≠ 0 then
            update s.devfs (S.driver node).devId node else s.devfs
          called := s.called ++ [node] } :=
        after.concat earlier fresh (by rw [if_neg skipped]; exact ⟨rfl, rfl⟩)
      simp only [if_neg skipped, waiting node mem_cons_self]
      by_cases fails : init node ≠ 0
      · rw [if_pos fails]
        exact ⟨1, _, rfl, rfl, done ++ [node], rest, rfl, next, .inr ⟨s.called, node, rfl,
          List.getLast?_concat, rfl, good, fails⟩⟩
      · rw [if_neg fails]
        refine ih ⟨next.called, next.devfs⟩ follows few distinct nonnull bounds
          (fun d inside => ?_) fun d inside => ?_
        · have apart : d ≠ node := by
            rintro rfl
            exact (nodup_append.mp distinct).2.2 d (by simp) d inside rfl
          exact (update_of_ne apart ..).trans (waits d inside)
        · rcases mem_append.mp inside with before | now
          · exact good d before
          · exact mem_singleton.mp now ▸ not_not.mp fails

/-- `init_driver` ends. The list then holds each loaded driver once, sorted by loading sequence;
`init` has been called once for each driver of a part of the list that is not skipped, all of it
or up to the first failure; and `devfs` holds the first driver of that part with each id. -/
theorem init_driver_ordered (S : DriverSection) (init : Nat → Int) :
    ∃ order ret s, S.initDriver init = .ok (ret, s) ∧ Circle s.links S.head order ∧
      order.Pairwise S.Before ∧ order.Perm S.loaded ∧ order.Nodup ∧ S.Ended init order ret s := by
  have start : Circle { next := id, prev := id } S.head [] := circle_empty rfl rfl
  have builds : ∃ links order, S.drivers.foldlM (S.addDriver (S.drivers.length + 1))
      { next := id, prev := id } = .ok links ∧ Circle links S.head order ∧
      order.Pairwise S.Before ∧ order.Perm (S.loaded ++ []) :=
    add_drivers_circle start (by simpa using S.distinct) (by simpa using S.nonnull) (by simp) .nil
  obtain ⟨links, order, folds, circle, sorted, perm⟩ := builds
  rw [append_nil] at perm
  have member : ∀ d ∈ order, d ∈ S.drivers := fun d inside =>
    mem_of_mem_filter (perm.mem_iff.mp inside)
  have few : order.length < S.drivers.length + 1 := by
    rw [perm.length_eq]
    exact Nat.lt_succ_of_le (length_filter_le ..)
  have distinct : order.Nodup := (nodup_cons.mp circle.distinct).2
  have nothing : S.Done [] { links, devfs := (fun _ => 0), initialized :=
      fun d => (S.driver d).initialized } := ⟨rfl, fun _ _ => rfl⟩
  obtain ⟨ret, s, loops, same, ended⟩ := init_loop_ended nothing (follows_next circle) few
    distinct (fun zero => S.nonnull (member 0 zero))
    (fun d inside => S.idBound d (member d inside)) (fun d inside => S.waiting d (member d inside))
    fun _ none => absurd none not_mem_nil
  refine ⟨order, ret, s, ?_, same ▸ circle, sorted, perm, distinct, ended⟩
  rw [initDriver, folds, bind_ok]
  exact loops

/-- Two drivers with one id, of which the second loads first. -/
def twoDrivers : DriverSection where
  drivers := [16, 32]
  head := 8
  driver d := { devId := 5, loadingSequence := if d = 16 then 2 else 1 }
  distinct := by decide
  nonnull := by decide
  idBound := by decide
  waiting := by decide

/-- The driver that loads first is initialised and has the id; the other one is skipped. -/
theorem shared_id_skipped : ∃ order s, twoDrivers.initDriver (fun _ => 0) = .ok (0, s) ∧
    Circle s.links 8 order ∧ order.Pairwise twoDrivers.Before ∧ order.Perm [16, 32] ∧
    s.called = [32] ∧ s.devfs 5 = 32 := by
  obtain ⟨order, ret, s, returns, circle, sorted, perm, -⟩ :=
    init_driver_ordered twoDrivers fun _ => 0
  have ends : (twoDrivers.initDriver fun _ => 0).map
      (fun last => (last.1, last.2.called, last.2.devfs 5)) = .ok (0, [32], 32) := by rfl
  rw [returns] at ends
  obtain ⟨rfl, called, holds⟩ : ret = 0 ∧ s.called = [32] ∧ s.devfs 5 = 32 := by
    simpa [Except.map] using ends
  exact ⟨order, s, returns, circle, sorted, perm, called, holds⟩

end DriverSection

end Mftt
