import Mathlib.Data.Fintype.Card
import Mftt.BlockCache
import Mftt.Interleaving

/-!
# The block cache under concurrency

Any number of processes call `bio_cache_read` and `bio_cache_release`. A process asks
for one block at a time; a process that keeps several buffers acts as several here.
Each step is atomic under the spinlock of the cache or belongs to the sleeplock of one
buffer: `bio_cache_get`, the acquisition of the sleeplock, the test of `valid`, the
transfer from the device, setting `valid`, the release of the sleeplock, and the
decrement of the reference count.
-/

namespace Mftt

open Interleaving Function

/-- Where a process is between its call of `bio_cache_read` and the end of its call of
`bio_cache_release`. -/
inductive BioTask where
  | idle
  | get (dev addr : Nat)
  | acquire (dev addr b : Nat)
  | check (dev addr b : Nat)
  | fill (dev addr b : Nat)
  | validate (dev addr b : Nat)
  | inside (dev addr b : Nat)
  | release (dev addr b : Nat)
  | unlocked (dev addr b : Nat)
  deriving DecidableEq

/-- The block and the buffer a process has got and not yet given back. -/
def BioTask.claim : BioTask → Option (Nat × Nat × Nat)
  | idle | get _ _ => none
  | acquire dev addr b | check dev addr b | fill dev addr b | validate dev addr b
  | inside dev addr b | release dev addr b | unlocked dev addr b => some (dev, addr, b)

/-- The buffer whose sleeplock a process has. -/
def BioTask.lockOf : BioTask → Option Nat
  | check _ _ b | fill _ _ b | validate _ _ b | inside _ _ b | release _ _ b => some b
  | _ => none

/-- `while (pLock->lock) sleep(..)`: no step while another process has the sleeplock. -/
def BioCache.lockBuffer (cache : BioCache) (b : Nat) : Except Fault (Option BioCache) :=
  cache.deref b >>= fun buf =>
    .ok (if buf.locked then none else some (cache.put b { buf with locked := true }))

/-- The next step of a process inside `bio_cache_read` or `bio_cache_release`; `.ok none`
where it waits. -/
def bioStep (kmalloc : BioCache → Option Nat) (cache : BioCache) :
    BioTask → Except Fault (Option (BioCache × BioTask))
  | .idle => .ok none
  | .get dev addr =>
    if addr % BUFFER_SIZE = 0 then
      bioCacheGet kmalloc cache dev addr >>= fun got =>
        .ok (some (got.1, .acquire dev addr got.2))
    else kpanic "Addr must be aligned to buffer size."
  | .acquire dev addr b =>
    cache.lockBuffer b >>= fun locked =>
      .ok (locked.map fun after => (after, .check dev addr b))
  | .check dev addr b =>
    cache.deref b >>= fun buf =>
      .ok (some (cache, if buf.valid then .inside dev addr b else .fill dev addr b))
  | .fill dev addr b =>
    cache.fill dev addr b >>= fun filled => .ok (some (filled, .validate dev addr b))
  | .validate dev addr b =>
    cache.modify b (fun buf => { buf with valid := true }) >>= fun after =>
      .ok (some (after, .inside dev addr b))
  | .inside dev addr b =>
    cache.deref b >>= fun buf =>
      if buf.locked = false then kpanic "Not holding buffered io lock"
      else .ok (some (cache, .release dev addr b))
  | .release dev addr b =>
    cache.modify b (fun buf => { buf with locked := false }) >>= fun after =>
      .ok (some (after, .unlocked dev addr b))
  | .unlocked _ _ b =>
    cache.modify b (fun buf => { buf with reference := buf.reference - 1 }) >>= fun after =>
      .ok (some (after, .idle))

/-- A process calls `bio_cache_read`, or takes its next step with some allocator. -/
inductive BioMoves : BioCache → BioTask → Unit → BioCache → BioTask → Prop where
  | call {cache dev addr} : BioMoves cache .idle () cache (.get dev addr)
  | step {cache task cache' task'} {kmalloc : BioCache → Option Nat} (fresh : Fresh kmalloc)
      (steps : bioStep kmalloc cache task = .ok (some (cache', task'))) :
      BioMoves cache task () cache' task'

/-- The cache after `init_buffered_io`. -/
def bioInit (disk : Nat → Option (Nat → UInt8)) : BioCache where
  list := []
  buffer := fun _ => none
  disk := disk

/-- An empty cache, with every process outside it. -/
def bioStart {ι : Type*} (disk : Nat → Option (Nat → UInt8)) : System ι BioCache BioTask :=
  ⟨bioInit disk, fun _ => .idle⟩

/-! ## The invariant -/

/-- A buffer holds the sector of its device at its address. -/
def Buffer.Holds (disk : Nat → Option (Nat → UInt8)) (buf : Buffer) : Prop :=
  ∃ content, disk buf.dev = some content ∧
    ∀ k, k < BUFFER_SIZE → buf.data k = content (buf.addr + k)

/-- The buffer of a process between its get and its release. -/
def BioTask.bufferOf (task : BioTask) : Option Nat :=
  task.claim.map fun claim => claim.2.2

/-- The tasks of a process whose buffer is valid. -/
def BioTask.loaded : BioTask → Prop
  | inside _ _ _ | release _ _ _ => True
  | _ => False

/-- The task of a process that has transferred the sector into its buffer. -/
def BioTask.filled : BioTask → Prop
  | validate _ _ _ => True
  | _ => False

open BioTask

/-- The list holds the allocated buffers, each once; no two are for one block; none is dirty. -/
structure CacheShape (cache : BioCache) : Prop where
  nodup : cache.list.Nodup
  linked : ∀ b, b ∈ cache.list ↔ ∃ buf, cache.buffer b = some buf
  distinct : ∀ b c buf buf', cache.buffer b = some buf → cache.buffer c = some buf' →
    buf.dev = buf'.dev → buf.addr = buf'.addr → b = c
  clean : ∀ b buf, cache.buffer b = some buf → buf.dirty = false

/-- What the list and the buffers satisfy by themselves: the list holds the allocated buffers,
each once; no two are for one block; none is dirty; the valid ones hold their sector. -/
structure CacheGood (disk : Nat → Option (Nat → UInt8)) (cache : BioCache) : Prop
    extends CacheShape cache where
  devices : cache.disk = disk
  content : ∀ b buf, cache.buffer b = some buf → buf.valid = true → buf.Holds disk

variable {ι : Type*} [Fintype ι] {disk : Nat → Option (Nat → UInt8)} {s : System ι BioCache BioTask}

variable {buf found : Buffer} {c : Nat} {kmalloc : BioCache → Option Nat}

section

variable [DecidableEq ι]

/-- The number of processes between their get and their release of a buffer. -/
def claimants (s : System ι BioCache BioTask) (b : Nat) : Nat :=
  s.count fun task => task.bufferOf = some b

/-- What the processes know about their buffers. -/
structure BioInv (disk : Nat → Option (Nat → UInt8)) (s : System ι BioCache BioTask) :
    Prop where
  good : CacheGood disk s.shared
  claimed : ∀ i dev addr b, (s.thread i).claim = some (dev, addr, b) →
    ∃ buf, s.shared.buffer b = some buf ∧ buf.dev = dev ∧ buf.addr = addr
  counted : ∀ b buf, s.shared.buffer b = some buf → buf.reference = claimants s b
  locked : ∀ i b buf, (s.thread i).lockOf = some b → s.shared.buffer b = some buf →
    buf.locked = true
  alone : ∀ i j b, (s.thread i).lockOf = some b → (s.thread j).lockOf = some b → i = j
  filled : ∀ i b buf, (s.thread i).lockOf = some b → s.shared.buffer b = some buf →
    (s.thread i).filled → buf.Holds disk
  loaded : ∀ i b buf, (s.thread i).lockOf = some b → s.shared.buffer b = some buf →
    (s.thread i).loaded → buf.valid = true

omit [DecidableEq ι] in
/-- What the holder of a sleeplock knows, at once. -/
theorem inv_of_held (good : CacheGood disk s.shared)
    (claimed : ∀ i dev addr b, (s.thread i).claim = some (dev, addr, b) →
      ∃ buf, s.shared.buffer b = some buf ∧ buf.dev = dev ∧ buf.addr = addr)
    (counted : ∀ b buf, s.shared.buffer b = some buf → buf.reference = claimants s b)
    (alone : ∀ i j b, (s.thread i).lockOf = some b → (s.thread j).lockOf = some b → i = j)
    (held : ∀ i b buf, (s.thread i).lockOf = some b → s.shared.buffer b = some buf →
      buf.locked = true ∧ ((s.thread i).filled → buf.Holds disk) ∧
        ((s.thread i).loaded → buf.valid = true)) :
    BioInv disk s :=
  ⟨good, claimed, counted, fun i b buf holds present => (held i b buf holds present).1, alone,
    fun i b buf holds present => (held i b buf holds present).2.1,
    fun i b buf holds present => (held i b buf holds present).2.2⟩

omit [DecidableEq ι] in
theorem BioInv.held (inv : BioInv disk s) {i : ι} {b : Nat} (holds : (s.thread i).lockOf = some b)
    (present : s.shared.buffer b = some buf) :
    buf.locked = true ∧ ((s.thread i).filled → buf.Holds disk) ∧
      ((s.thread i).loaded → buf.valid = true) :=
  ⟨inv.locked i b buf holds present, inv.filled i b buf holds present,
    inv.loaded i b buf holds present⟩

end

/-! ## Steps on one buffer -/

/-- What a step does to the one buffer it touches, seen from the process that takes it: the
block stays, the reference count follows the claims, the sleeplock is taken only when it is
free, and only its holder changes the flags and the data. -/
structure OwnStep (disk : Nat → Option (Nat → UInt8)) (task task' : BioTask) (b : Nat)
    (buf buf' : Buffer) : Prop where
  dev : buf'.dev = buf.dev
  addr : buf'.addr = buf.addr
  dirty : buf'.dirty = buf.dirty
  before : ∀ c, task.bufferOf = some c → c = b
  after : ∀ dev addr c, task'.claim = some (dev, addr, c) → c = b ∧ buf.dev = dev ∧ buf.addr = addr
  counted : buf'.reference + (if task.bufferOf = some b then 1 else 0) =
    buf.reference + (if task'.bufferOf = some b then 1 else 0)
  takes : ∀ c, task'.lockOf = some c →
    c = b ∧ buf'.locked = true ∧ (task.lockOf = some b ∨ buf.locked = false)
  guarded : task.lockOf ≠ some b →
    (buf.locked = true → buf'.locked = true) ∧ buf'.valid = buf.valid ∧ buf'.data = buf.data
  content : buf'.valid = true → buf'.Holds disk
  filled : task'.filled → buf'.Holds disk
  loaded : task'.loaded → buf'.valid = true

/-- The flags and the count of a buffer say nothing about its content. -/
@[simp]
theorem Buffer.holds_flags {valid dirty locked : Bool} {reference : Int} :
    Buffer.Holds disk ⟨valid, dirty, buf.dev, buf.addr, buf.data, reference, locked⟩ ↔
      buf.Holds disk := Iff.rfl

theorem Buffer.Holds.congr {buf' : Buffer} (holds : buf.Holds disk) (dev : buf'.dev = buf.dev)
    (addr : buf'.addr = buf.addr) (data : buf'.data = buf.data) : buf'.Holds disk := by
  rw [Buffer.Holds, dev, addr, data]
  exact holds

/-- The cache with one buffer replaced and its list reordered. -/
def BioCache.replace (cache : BioCache) (list : List Nat) (b : Nat) (buf : Buffer) : BioCache :=
  { cache.put b buf with list := list }

theorem replace_buffer_self (cache : BioCache) (list : List Nat) (b : Nat) (buf : Buffer) :
    (cache.replace list b buf).buffer b = some buf :=
  update_self ..

variable {b dev addr : Nat} {cache : BioCache} {list : List Nat}

theorem replace_buffer_of_ne (cache : BioCache) (list : List Nat) (buf : Buffer) (other : c ≠ b) :
    (cache.replace list b buf).buffer c = cache.buffer c :=
  update_of_ne other ..

theorem replace_cases (present : (cache.replace list b buf).buffer c = some found) :
    (c = b ∧ found = buf) ∨ (c ≠ b ∧ cache.buffer c = some found) := by
  by_cases same : c = b
  · subst same
    rw [replace_buffer_self] at present
    exact .inl ⟨rfl, (Option.some.inj present).symm⟩
  · rw [replace_buffer_of_ne _ _ _ same] at present
    exact .inr ⟨same, present⟩

theorem replace_block {buf' : Buffer} (present : cache.buffer b = some buf)
    (dev : buf'.dev = buf.dev) (addr : buf'.addr = buf.addr) (dirty : buf'.dirty = buf.dirty)
    (at_c : (cache.replace list b buf').buffer c = some found) :
    ∃ before, cache.buffer c = some before ∧ found.dev = before.dev ∧
      found.addr = before.addr ∧ found.dirty = before.dirty := by
  rcases replace_cases at_c with ⟨rfl, rfl⟩ | ⟨_, same⟩
  · exact ⟨buf, present, dev, addr, dirty⟩
  · exact ⟨found, same, rfl, rfl, rfl⟩

theorem shape_replace {buf' : Buffer} (shape : CacheShape cache)
    (present : cache.buffer b = some buf) (order : list.Perm cache.list) (dev : buf'.dev = buf.dev)
    (addr : buf'.addr = buf.addr) (dirty : buf'.dirty = buf.dirty) :
    CacheShape (cache.replace list b buf') := by
  constructor
  · exact order.nodup_iff.mpr shape.nodup
  · intro c
    change c ∈ list ↔ _
    rw [order.mem_iff, shape.linked]
    by_cases same : c = b
    · subst same
      exact iff_of_true ⟨buf, present⟩ ⟨buf', replace_buffer_self ..⟩
    · rw [replace_buffer_of_ne _ _ _ same]
  · intro c d found found' at_c at_d same_dev same_addr
    obtain ⟨before, at_c, dev_c, addr_c, _⟩ := replace_block present dev addr dirty at_c
    obtain ⟨before', at_d, dev_d, addr_d, _⟩ := replace_block present dev addr dirty at_d
    apply shape.distinct c d before before' at_c at_d
    · rw [← dev_c, ← dev_d, same_dev]
    · rw [← addr_c, ← addr_d, same_addr]
  · intro c found at_c
    obtain ⟨before, at_c, _, _, dirty_c⟩ := replace_block present dev addr dirty at_c
    rw [dirty_c]
    exact shape.clean c before at_c

theorem good_replace {buf' : Buffer} (good : CacheGood disk cache)
    (present : cache.buffer b = some buf) (order : list.Perm cache.list) (dev : buf'.dev = buf.dev)
    (addr : buf'.addr = buf.addr) (dirty : buf'.dirty = buf.dirty)
    (content : buf'.valid = true → buf'.Holds disk) :
    CacheGood disk (cache.replace list b buf') := by
  refine ⟨shape_replace good.toCacheShape present order dev addr dirty, good.devices, ?_⟩
  intro c found at_c valid
  rcases replace_cases at_c with ⟨_, rfl⟩ | ⟨_, same⟩
  · exact content valid
  · exact good.content c found same valid

variable {i : ι} {task : BioTask}

section

variable [DecidableEq ι] {buf' : Buffer}

variable (inv : BioInv disk s)
include inv

/-- The reference counts follow the claims of the process that moves. -/
theorem counted_own_step (present : s.shared.buffer b = some buf)
    (own : OwnStep disk (s.thread i) task b buf buf')
    (at_c : (s.shared.replace list b buf').buffer c = some found) :
    found.reference = claimants (s.move i (s.shared.replace list b buf') task) c := by
  have moved := count_move (fun task => task.bufferOf = some c) s i
    (s.shared.replace list b buf') task
  rcases replace_cases at_c with ⟨rfl, rfl⟩ | ⟨other, same⟩
  · have counted := inv.counted c buf present
    have change := own.counted
    rw [claimants] at counted ⊢
    split_ifs at moved change <;> omega
  · have untouched : ¬ (s.thread i).bufferOf = some c := fun claims => other (own.before c claims)
    have untouched' : ¬ task.bufferOf = some c := by
      intro claims
      obtain ⟨⟨dev, addr, d⟩, claim, rfl⟩ := Option.map_eq_some_iff.mp claims
      exact other (own.after dev addr d claim).1
    rw [if_neg untouched, if_neg untouched', Nat.add_zero] at moved
    rw [claimants, moved]
    exact inv.counted c found same

/-- Two processes never have one sleeplock: it is taken only while it is free. -/
theorem alone_own_step (present : s.shared.buffer b = some buf)
    (own : OwnStep disk (s.thread i) task b buf buf') {j : ι} (other : j ≠ i)
    (mine : task.lockOf = some c) : ((s.move i cache task).thread j).lockOf ≠ some c := by
  rw [move_thread_of_ne s other]
  intro theirs
  obtain ⟨rfl, _, had | free⟩ := own.takes c mine
  · exact other (inv.alone j i c theirs had)
  · have taken := inv.locked j c buf theirs present
    rw [free] at taken
    contradiction

omit [DecidableEq ι] in
/-- Other processes with the sleeplock of a buffer find it as it was. -/
theorem guarded_own_step (own : OwnStep disk (s.thread i) task b buf buf') {j : ι} (other : j ≠ i)
    (theirs : (s.thread j).lockOf = some b) :
    (buf.locked = true → buf'.locked = true) ∧ buf'.valid = buf.valid ∧ buf'.data = buf.data :=
  own.guarded fun mine => other (inv.alone j i b theirs mine)

/-- A step of a process on its own buffer keeps the invariant. -/
theorem inv_own_step (present : s.shared.buffer b = some buf)
    (own : OwnStep disk (s.thread i) task b buf buf') (order : list.Perm s.shared.list) :
    BioInv disk (s.move i (s.shared.replace list b buf') task) := by
  apply inv_of_held
  · exact good_replace inv.good present order own.dev own.addr own.dirty own.content
  · intro j dev addr c claim
    by_cases same : j = i
    · subst same
      rw [move_thread_self] at claim
      obtain ⟨rfl, dev_eq, addr_eq⟩ := own.after dev addr c claim
      exact ⟨buf', replace_buffer_self .., own.dev.trans dev_eq, own.addr.trans addr_eq⟩
    · rw [move_thread_of_ne s same] at claim
      obtain ⟨found, at_c, dev_eq, addr_eq⟩ := inv.claimed j dev addr c claim
      by_cases same_buffer : c = b
      · subst same_buffer
        cases present.symm.trans at_c
        exact ⟨buf', replace_buffer_self .., own.dev.trans dev_eq, own.addr.trans addr_eq⟩
      · exact ⟨found, (replace_buffer_of_ne _ _ _ same_buffer).trans at_c, dev_eq, addr_eq⟩
  · intro c found at_c
    exact counted_own_step inv present own at_c
  · intro j k c holds_j holds_k
    by_cases same_j : j = i <;> by_cases same_k : k = i
    · rw [same_j, same_k]
    · subst same_j
      rw [move_thread_self] at holds_j
      exact absurd holds_k (alone_own_step inv present own same_k holds_j)
    · subst same_k
      rw [move_thread_self] at holds_k
      exact absurd holds_j (alone_own_step inv present own same_j holds_k)
    · rw [move_thread_of_ne s same_j] at holds_j
      rw [move_thread_of_ne s same_k] at holds_k
      exact inv.alone j k c holds_j holds_k
  · intro j c found holds at_c
    by_cases same : j = i
    · subst same
      rw [move_thread_self] at holds ⊢
      obtain ⟨rfl, taken, _⟩ := own.takes c holds
      cases (replace_buffer_self ..).symm.trans at_c
      exact ⟨taken, own.filled, own.loaded⟩
    · rw [move_thread_of_ne s same] at holds ⊢
      rcases replace_cases at_c with ⟨rfl, rfl⟩ | ⟨_, at_c⟩
      · obtain ⟨locked, valid, data⟩ := guarded_own_step inv own same holds
        obtain ⟨taken, filled, loaded⟩ := inv.held holds present
        rw [valid]
        exact ⟨locked taken, fun is => (filled is).congr own.dev own.addr data, loaded⟩
      · exact inv.held holds at_c

end

/-! ## Each step of a call -/

theorem deref_eq_ok : cache.deref b = .ok buf ↔ cache.buffer b = some buf := by
  rw [BioCache.deref]
  cases cache.buffer b <;> simp

theorem replace_same (present : cache.buffer b = some buf) :
    cache.replace cache.list b buf = cache := by
  rw [BioCache.replace, BioCache.put, ← present, update_eq_self]

theorem read_sector_holds {content : Nat → UInt8} (device : disk buf.dev = some content) :
    Buffer.Holds disk { buf with data := readSector content buf.addr buf.data } := by
  refine ⟨content, device, ?_⟩
  intro k inside
  exact if_pos inside

section

variable {task' : BioTask}

/-- A step of a process that has got its buffer changes at most this buffer. -/
theorem own_step_of_claim (inv : BioInv disk s) (now : s.thread i = task)
    (claim : task.claim = some (dev, addr, b))
    (steps : bioStep kmalloc s.shared task = .ok (some (cache, task'))) :
    ∃ buf buf', s.shared.buffer b = some buf ∧
      cache = s.shared.replace s.shared.list b buf' ∧ OwnStep disk task task' b buf buf' := by
  obtain ⟨buf, present, rfl, rfl⟩ := inv.claimed i dev addr b (now ▸ claim)
  have derefs := deref_eq_ok.mpr present
  have content := inv.good.content b buf present
  have held := fun holds : (s.thread i).lockOf = some b => inv.held holds present
  rw [now] at held
  cases task <;> cases claim <;> rw [bioStep] at steps
  case acquire =>
    rw [BioCache.lockBuffer, derefs, bind_ok] at steps
    split at steps
    · cases steps
    · cases steps
      refine ⟨buf, { buf with locked := true }, present, rfl, ?_⟩
      constructor <;> simp_all [claim, bufferOf, lockOf,
        filled, loaded]
  case check =>
    rw [derefs] at steps
    cases steps
    refine ⟨buf, buf, present, (replace_same present).symm, ?_⟩
    cases valid : buf.valid <;> constructor <;> simp_all [claim, bufferOf,
      lockOf, filled, loaded]
  case fill =>
    rw [BioCache.fill] at steps
    split at steps
    · cases steps
    · rename_i content device
      rw [derefs] at steps
      cases steps
      rw [inv.good.devices] at device
      have holds := read_sector_holds device
      refine ⟨buf, _, present, rfl, ?_⟩
      constructor
      case content => exact fun _ => holds
      all_goals simp_all [claim, bufferOf, lockOf, loaded]
  case inside =>
    rw [derefs, bind_ok, if_neg (by simp [(held rfl).1])] at steps
    cases steps
    refine ⟨buf, buf, present, (replace_same present).symm, ?_⟩
    constructor <;> simp_all [claim, bufferOf, lockOf, loaded]
  case validate | release | unlocked =>
    rw [BioCache.modify, derefs] at steps
    cases steps
    refine ⟨buf, _, present, rfl, ?_⟩
    constructor <;> simp_all [claim, bufferOf, lockOf, filled,
      loaded]

/-- A process that finds its block in the cache raises the count of that buffer. -/
theorem own_step_of_hit (good : CacheGood disk cache) (present : cache.buffer b = some buf)
    (dev_eq : buf.dev = dev) (addr_eq : buf.addr = addr) :
    OwnStep disk (.get dev addr) (.acquire dev addr b) b buf
      { buf with reference := buf.reference + 1 } := by
  subst dev_eq addr_eq
  have content := good.content b buf present
  constructor <;> simp_all [claim, bufferOf, lockOf, filled,
    loaded]

end

/-! ## Recycling and linking -/

theorem is_for_iff :
    cache.isFor dev addr b = true ↔
      ∃ buf, cache.buffer b = some buf ∧ buf.dev = dev ∧ buf.addr = addr := by
  rw [BioCache.isFor]
  cases cache.buffer b <;> simp

theorem find_some (found : cache.find dev addr = some b) :
    b ∈ cache.list ∧ ∃ buf, cache.buffer b = some buf ∧ buf.dev = dev ∧ buf.addr = addr :=
  ⟨List.mem_of_find?_eq_some found, is_for_iff.mp (List.find?_some found)⟩

theorem find_none (missing : cache.find dev addr = none) (member : b ∈ cache.list)
    (present : cache.buffer b = some buf) : ¬ (buf.dev = dev ∧ buf.addr = addr) := by
  intro key
  exact List.find?_eq_none.mp missing b member (is_for_iff.mpr ⟨buf, present, key⟩)

theorem to_delete_some (found : cache.toDelete = some b) :
    b ∈ cache.list ∧ ∃ buf, cache.buffer b = some buf ∧ buf.reference = 0 := by
  constructor
  · exact List.mem_reverse.mp (List.mem_of_find?_eq_some found)
  · have unused := List.find?_some found
    rw [BioCache.unused] at unused
    cases present : cache.buffer b with
    | none => simp [present] at unused
    | some buf => exact ⟨buf, rfl, by simpa [present] using unused⟩

theorem remove_buffer :
    (cache.remove b).buffer c = some buf ↔ c ≠ b ∧ cache.buffer c = some buf := by
  by_cases same : c = b
  · subst same
    simp [BioCache.remove]
  · simp [BioCache.remove, same]

theorem shape_remove (shape : CacheShape cache) : CacheShape (cache.remove b) := by
  constructor
  · exact shape.nodup.erase b
  · intro c
    change c ∈ cache.list.erase b ↔ _
    simp only [remove_buffer, shape.nodup.mem_erase_iff, shape.linked, exists_and_left]
  · intro c d buf buf' at_c at_d
    exact shape.distinct c d buf buf' (remove_buffer.mp at_c).2 (remove_buffer.mp at_d).2
  · intro c buf at_c
    exact shape.clean c buf (remove_buffer.mp at_c).2

theorem good_remove (good : CacheGood disk cache) : CacheGood disk (cache.remove b) :=
  ⟨shape_remove good.toCacheShape, good.devices, fun c buf at_c =>
    good.content c buf (remove_buffer.mp at_c).2⟩

/-- The room `bio_cache_get` makes: the cache as it is, or without an unused buffer. -/
theorem evict_cases {room : BioCache} (shape : CacheShape cache) (evicts : cache.evict = .ok room) :
    room = cache ∨ ∃ b buf, cache.buffer b = some buf ∧ buf.reference = 0 ∧
      room = cache.remove b := by
  rw [BioCache.evict] at evicts
  split at evicts
  · cases evicts
    exact .inl rfl
  · rename_i b found
    obtain ⟨_, buf, present, unused⟩ := to_delete_some found
    rw [deref_eq_ok.mpr present, bind_ok, shape.clean b buf present] at evicts
    cases evicts
    exact .inr ⟨b, buf, present, unused, rfl⟩

theorem link_cases (present : (cache.link b dev addr).buffer c = some buf) :
    (c = b ∧ buf = newBuffer dev addr) ∨ (c ≠ b ∧ cache.buffer c = some buf) :=
  replace_cases present

theorem link_buffer_of_ne (other : c ≠ b) : (cache.link b dev addr).buffer c = cache.buffer c :=
  update_of_ne other ..

theorem shape_link (shape : CacheShape cache) (free : cache.buffer b = none)
    (missing : ∀ c buf, cache.buffer c = some buf → ¬ (buf.dev = dev ∧ buf.addr = addr)) :
    CacheShape (cache.link b dev addr) := by
  constructor
  · apply List.nodup_cons.mpr
    refine ⟨?_, shape.nodup⟩
    intro member
    obtain ⟨buf, present⟩ := (shape.linked b).mp member
    rw [free] at present
    contradiction
  · intro c
    change c ∈ b :: cache.list ↔ _
    rw [List.mem_cons, shape.linked]
    by_cases same : c = b
    · subst same
      exact iff_of_true (.inl rfl) ⟨_, update_self ..⟩
    · rw [link_buffer_of_ne same]
      simp [same]
  · intro c d buf buf' at_c at_d same_dev same_addr
    rcases link_cases at_c with ⟨new_c, rfl⟩ | ⟨_, old_c⟩ <;>
      rcases link_cases at_d with ⟨new_d, rfl⟩ | ⟨_, old_d⟩
    · rw [new_c, new_d]
    · exact absurd ⟨same_dev.symm, same_addr.symm⟩ (missing d buf' old_d)
    · exact absurd ⟨same_dev, same_addr⟩ (missing c buf old_c)
    · exact shape.distinct c d buf buf' old_c old_d same_dev same_addr
  · intro c buf at_c
    rcases link_cases at_c with ⟨_, rfl⟩ | ⟨_, at_c⟩
    · rfl
    · exact shape.clean c buf at_c

theorem good_link (good : CacheGood disk cache) (free : cache.buffer b = none)
    (missing : ∀ c buf, cache.buffer c = some buf → ¬ (buf.dev = dev ∧ buf.addr = addr)) :
    CacheGood disk (cache.link b dev addr) := by
  refine ⟨shape_link good.toCacheShape free missing, good.devices, ?_⟩
  intro c buf at_c valid
  rcases link_cases at_c with ⟨_, rfl⟩ | ⟨_, at_c⟩
  · contradiction
  · exact good.content c buf at_c valid

/-- The holder of a sleeplock has got the buffer. -/
theorem buffer_of_lock (holds : task.lockOf = some b) : task.bufferOf = some b := by
  cases task <;> simp_all [lockOf, bufferOf, claim]

section

/-- Nobody has got a buffer whose reference count is zero. -/
theorem no_claimant (inv : BioInv disk s) (present : s.shared.buffer b = some buf)
    (unused : buf.reference = 0) (i : ι) : (s.thread i).bufferOf ≠ some b := by
  intro claims
  have counted := inv.counted b buf present
  have positive : 0 < claimants s b :=
    count_pos (fun task : BioTask => task.bufferOf = some b) claims
  omega

/-- Recycling an unused buffer concerns no process. -/
theorem inv_remove (inv : BioInv disk s) (present : s.shared.buffer b = some buf)
    (unused : buf.reference = 0) : BioInv disk ⟨s.shared.remove b, s.thread⟩ := by
  have nobody := no_claimant inv present unused
  apply inv_of_held
  · exact good_remove inv.good
  · intro i dev addr c claim
    obtain ⟨found, at_c, key⟩ := inv.claimed i dev addr c claim
    have other : c ≠ b := by
      rintro rfl
      exact nobody i (Option.map_eq_some_iff.mpr ⟨_, claim, rfl⟩)
    exact ⟨found, remove_buffer.mpr ⟨other, at_c⟩, key⟩
  · intro c found at_c
    exact inv.counted c found (remove_buffer.mp at_c).2
  · exact inv.alone
  · intro i c found holds at_c
    exact inv.held holds (remove_buffer.mp at_c).2

theorem no_claimant_of_free (inv : BioInv disk s) (free : s.shared.buffer b = none) (i : ι) :
    (s.thread i).bufferOf ≠ some b := by
  intro claims
  obtain ⟨⟨dev, addr, c⟩, claim, rfl⟩ := Option.map_eq_some_iff.mp claims
  obtain ⟨buf, present, _⟩ := inv.claimed i dev addr c claim
  rw [free] at present
  contradiction

variable [DecidableEq ι]

/-- A new buffer is claimed by the process that linked it, and by no other. -/
theorem inv_link (inv : BioInv disk s) (now : s.thread i = .get dev addr)
    (free : s.shared.buffer b = none)
    (missing : ∀ c buf, s.shared.buffer c = some buf → ¬ (buf.dev = dev ∧ buf.addr = addr)) :
    BioInv disk (s.move i (s.shared.link b dev addr) (.acquire dev addr b)) := by
  have nobody := no_claimant_of_free inv free
  -- A process that holds a sleeplock is not the one that moves, nor is its buffer the new one.
  have others : ∀ j c, ((s.move i (s.shared.link b dev addr) (.acquire dev addr b)).thread
      j).lockOf = some c → j ≠ i ∧ (s.thread j).lockOf = some c ∧ c ≠ b := by
    intro j c holds
    have other : j ≠ i := by
      rintro rfl
      rw [move_thread_self] at holds
      contradiction
    rw [move_thread_of_ne s other] at holds
    refine ⟨other, holds, ?_⟩
    rintro rfl
    exact nobody j (buffer_of_lock holds)
  apply inv_of_held
  · exact good_link inv.good free missing
  · intro j dev' addr' c claim
    by_cases same : j = i
    · subst same
      rw [move_thread_self] at claim
      cases claim
      exact ⟨newBuffer dev addr, update_self .., rfl, rfl⟩
    · rw [move_thread_of_ne s same] at claim
      obtain ⟨found, at_c, key⟩ := inv.claimed j dev' addr' c claim
      have other : c ≠ b := by
        rintro rfl
        rw [free] at at_c
        contradiction
      exact ⟨found, (link_buffer_of_ne other).trans at_c, key⟩
  · intro c found at_c
    have moved := count_move (fun task => task.bufferOf = some c) s i
      (s.shared.link b dev addr) (.acquire dev addr b)
    rw [now, if_neg (by simp [bufferOf, claim])] at moved
    rcases link_cases at_c with ⟨rfl, rfl⟩ | ⟨other, at_c⟩
    · have none_before : s.count (fun task => task.bufferOf = some c) = 0 :=
        Finset.card_eq_zero.mpr (Finset.filter_eq_empty_iff.mpr fun j _ => nobody j)
      rw [none_before, if_pos (by rfl), Nat.add_zero] at moved
      rw [claimants, moved]
      rfl
    · rw [if_neg (by simpa [bufferOf, claim] using Ne.symm other), Nat.add_zero]
        at moved
      rw [claimants, moved]
      exact inv.counted c found at_c
  · intro j k c holds_j holds_k
    exact inv.alone j k c (others j c holds_j).2.1 (others k c holds_k).2.1
  · intro j c found holds at_c
    obtain ⟨same, holds, other⟩ := others j c holds
    rw [move_shared, link_buffer_of_ne other] at at_c
    rw [move_thread_of_ne s same]
    exact inv.held holds at_c

end

/-! ## Runs -/

/-- The cache, or the cache without one unused buffer. -/
def BioCache.Room (cache room : BioCache) : Prop :=
  room = cache ∨ ∃ b buf, cache.buffer b = some buf ∧ buf.reference = 0 ∧ room = cache.remove b

/-- Everything a step can do to the cache. -/
inductive BioChange (disk : Nat → Option (Nat → UInt8)) (cache : BioCache) (task : BioTask) :
    BioCache → BioTask → Prop where
  | outside {task'} : task.claim = none → task'.claim = none →
      BioChange disk cache task cache task'
  | own {list b buf buf' task'} : cache.buffer b = some buf →
      OwnStep disk task task' b buf buf' → list.Perm cache.list →
      BioChange disk cache task (cache.replace list b buf') task'
  | linked {room b dev addr} : task = .get dev addr → cache.Room room → room.buffer b = none →
      (∀ c buf, room.buffer c = some buf → ¬ (buf.dev = dev ∧ buf.addr = addr)) →
      BioChange disk cache task (room.link b dev addr) (.acquire dev addr b)

/-- `bio_cache_get` finds the block, or links a new buffer in the room it made. -/
theorem bio_change_get {cache' : BioCache} (good : CacheGood disk cache) (fresh : Fresh kmalloc)
    (gets : bioCacheGet kmalloc cache dev addr = .ok (cache', b)) :
    BioChange disk cache (.get dev addr) cache' (.acquire dev addr b) := by
  rw [bioCacheGet] at gets
  split at gets
  · rename_i c found
    obtain ⟨member, buf, present, dev_eq, addr_eq⟩ := find_some found
    rw [BioCache.promote, deref_eq_ok.mpr present] at gets
    cases gets
    exact .own present (own_step_of_hit good present dev_eq addr_eq)
      (List.perm_cons_erase member).symm
  · rename_i missing
    obtain ⟨room, makes, gets⟩ := bind_eq_ok.mp gets
    have isRoom : cache.Room room := by
      split at makes
      · exact evict_cases good.toCacheShape makes
      · cases makes
        exact .inl rfl
    split at gets
    · contradiction
    · rename_i c allocated
      cases gets
      apply BioChange.linked rfl isRoom (fresh room b allocated)
      intro c buf at_c
      have before : cache.buffer c = some buf := by
        rcases isRoom with rfl | ⟨d, _, _, _, rfl⟩
        · exact at_c
        · exact (remove_buffer.mp at_c).2
      exact find_none missing ((good.linked c).mpr ⟨buf, before⟩) before

/-- A buffer somebody refers to stays allocated, for the same block, through any step. -/
theorem referenced_kept {before : BioCache} {task' : BioTask}
    (change : BioChange disk before task cache task') (present : before.buffer b = some buf)
    (referenced : 0 < buf.reference) :
    ∃ buf', cache.buffer b = some buf' ∧ buf'.dev = buf.dev ∧ buf'.addr = buf.addr := by
  cases change with
  | outside => exact ⟨buf, present, rfl, rfl⟩
  | @own list c found found' _ at_c own _ =>
    by_cases same : b = c
    · subst same
      cases present.symm.trans at_c
      exact ⟨found', replace_buffer_self .., own.dev, own.addr⟩
    · exact ⟨buf, (replace_buffer_of_ne _ _ _ same).trans present, rfl, rfl⟩
  | @linked room c dev addr _ isRoom free _ =>
    have stays : room.buffer b = some buf := by
      rcases isRoom with rfl | ⟨d, found, at_d, unused, rfl⟩
      · exact present
      · refine remove_buffer.mpr ⟨?_, present⟩
        rintro rfl
        cases present.symm.trans at_d
        omega
    have other : b ≠ c := by
      rintro rfl
      rw [free] at stays
      contradiction
    exact ⟨buf, (link_buffer_of_ne other).trans stays, rfl, rfl⟩

section

theorem bio_change (inv : BioInv disk s) (moves : BioMoves s.shared (s.thread i) () cache task) :
    BioChange disk s.shared (s.thread i) cache task := by
  generalize now : s.thread i = before at moves
  cases moves with
  | call => exact .outside rfl rfl
  | step fresh steps =>
    cases claim : before.claim with
    | some claimed =>
      obtain ⟨buf, buf', present, rfl, own⟩ := own_step_of_claim inv now claim steps
      exact .own present own (List.Perm.refl _)
    | none =>
      cases before <;> cases claim <;> rw [bioStep] at steps
      · cases steps
      · split at steps
        · obtain ⟨⟨cache', b⟩, gets, rest⟩ := bind_eq_ok.mp steps
          cases rest
          exact bio_change_get inv.good fresh gets
        · contradiction

theorem inv_start : BioInv disk (bioStart disk : System ι BioCache BioTask) where
  good := ⟨⟨List.nodup_nil, by simp [bioStart, bioInit], nofun, nofun⟩, rfl, nofun⟩
  claimed := nofun
  counted := nofun
  locked := nofun
  alone := nofun
  filled := nofun
  loaded := nofun

variable [DecidableEq ι]

/-- A step outside every buffer changes nothing the invariant speaks of. -/
theorem inv_outside (inv : BioInv disk s) (before : (s.thread i).claim = none)
    (after : task.claim = none) : BioInv disk (s.move i s.shared task) := by
  have no_buffer : ∀ {t : BioTask} {c}, t.claim = none → t.bufferOf ≠ some c := by
    intro t c none_claimed claims
    rw [bufferOf, none_claimed] at claims
    contradiction
  -- A process with a claim or a sleeplock is not the one that moves.
  have others : ∀ j c, ((s.move i s.shared task).thread j).bufferOf = some c →
      (s.move i s.shared task).thread j = s.thread j := by
    intro j c claims
    by_cases same : j = i
    · subst same
      rw [move_thread_self] at claims
      exact absurd claims (no_buffer after)
    · exact move_thread_of_ne s same ..
  apply inv_of_held
  · exact inv.good
  · intro j dev addr c claim
    rw [others j c (Option.map_eq_some_iff.mpr ⟨_, claim, rfl⟩)] at claim
    exact inv.claimed j dev addr c claim
  · intro c found at_c
    have moved := count_move (fun task => task.bufferOf = some c) s i s.shared task
    rw [if_neg (no_buffer before), if_neg (no_buffer after), Nat.add_zero] at moved
    rw [claimants, moved]
    exact inv.counted c found at_c
  · intro j k c holds_j holds_k
    rw [others j c (buffer_of_lock holds_j)] at holds_j
    rw [others k c (buffer_of_lock holds_k)] at holds_k
    exact inv.alone j k c holds_j holds_k
  · intro j c found holds at_c
    have same := others j c (buffer_of_lock holds)
    rw [same] at holds ⊢
    exact inv.held holds at_c

theorem inv_change (inv : BioInv disk s)
    (change : BioChange disk s.shared (s.thread i) cache task) :
    BioInv disk (s.move i cache task) := by
  cases change with
  | outside before after => exact inv_outside inv before after
  | own present own order => exact inv_own_step inv present own order
  | linked now isRoom free missing =>
    rcases isRoom with rfl | ⟨c, buf, present, unused, rfl⟩
    · exact inv_link inv now free missing
    · exact inv_link (inv_remove inv present unused) now free missing

theorem inv_run {trace : List (ι × Unit)} (run : Run BioMoves (bioStart disk) trace s) :
    BioInv disk s := by
  induction run with
  | first => exact inv_start
  | step _ moves inv => exact inv_change inv (bio_change inv moves)

/-- The identity of blocks and buffers in a state of the system. -/
structure CacheSound (disk : Nat → Option (Nat → UInt8)) (s : System ι BioCache BioTask) :
    Prop where
  /-- Every buffer of the list is there once, and no two are for one block. -/
  nodup : s.shared.list.Nodup
  distinct : ∀ b ∈ s.shared.list, ∀ c ∈ s.shared.list, ∀ buf buf',
    s.shared.buffer b = some buf → s.shared.buffer c = some buf' →
    buf.dev = buf'.dev → buf.addr = buf'.addr → b = c
  /-- The count of a buffer is the number of processes between their get and release of it. -/
  counted : ∀ b ∈ s.shared.list, ∃ buf, s.shared.buffer b = some buf ∧ buf.reference = claimants s b
  /-- No step of any process unlinks or frees a buffer that is referred to. -/
  kept : ∀ b ∈ s.shared.list, ∀ buf, s.shared.buffer b = some buf → 0 < buf.reference →
    ∀ i cache task, BioMoves s.shared (s.thread i) () cache task →
      b ∈ cache.list ∧ ∃ buf', cache.buffer b = some buf' ∧
        buf'.dev = buf.dev ∧ buf'.addr = buf.addr
  /-- A buffer a process has got is in the list. -/
  claimed : ∀ i dev addr b, (s.thread i).claim = some (dev, addr, b) → b ∈ s.shared.list
  /-- At most one process has the sleeplock of a buffer. -/
  alone : ∀ i j b, (s.thread i).lockOf = some b → (s.thread j).lockOf = some b → i = j
  /-- A buffer that `bio_cache_read` has returned holds the sector asked for. -/
  content : ∀ i dev addr b, s.thread i = .inside dev addr b →
    ∃ buf data, s.shared.buffer b = some buf ∧ buf.dev = dev ∧ buf.addr = addr ∧
      disk dev = some data ∧ ∀ k, k < BUFFER_SIZE → buf.data k = data (addr + k)

/-- The block cache keeps its blocks apart and its buffers alive in every state that any
interleaving of reads and releases by any number of processes reaches. -/
theorem block_cache_runs_sound {trace : List (ι × Unit)}
    (run : Run BioMoves (bioStart disk) trace s) : CacheSound disk s := by
  have inv := inv_run run
  constructor
  · exact inv.good.nodup
  · intro b _ c _ buf buf'
    exact inv.good.distinct b c buf buf'
  · intro b member
    obtain ⟨buf, present⟩ := (inv.good.linked b).mp member
    exact ⟨buf, present, inv.counted b buf present⟩
  · intro b _ buf present referenced i cache task moves
    have change := bio_change inv moves
    obtain ⟨buf', present', key⟩ := referenced_kept change present referenced
    have after : CacheGood disk cache := (inv_change inv change).good
    exact ⟨(after.linked b).mpr ⟨buf', present'⟩, buf', present', key⟩
  · intro i dev addr b claim
    obtain ⟨buf, present, _⟩ := inv.claimed i dev addr b claim
    exact (inv.good.linked b).mpr ⟨buf, present⟩
  · exact inv.alone
  · intro i dev addr b now
    obtain ⟨buf, present, rfl, rfl⟩ := inv.claimed i dev addr b (by rw [now]; rfl)
    have valid := inv.loaded i b buf (by rw [now]; rfl) present (by rw [now]; trivial)
    obtain ⟨data, device, same⟩ := inv.good.content b buf present valid
    exact ⟨buf, data, present, rfl, rfl, device, same⟩

end

/-- An allocator that has a single address to give. -/
def singleAddress (cache : BioCache) : Option Nat :=
  if (cache.buffer 1).isNone then some 1 else none

theorem single_address_fresh : Fresh singleAddress := by
  intro cache b gives
  rw [singleAddress] at gives
  split at gives
  · rename_i free
    cases gives
    exact Option.isNone_iff_eq_none.mp free
  · contradiction

/-- The devices of a machine with one disk. -/
def oneDisk (content : Nat → UInt8) : Nat → Option (Nat → UInt8)
  | 0 => some content
  | _ => none

/-- A process reads the first sector of the disk while another one, which has got its buffer too,
waits for the sleeplock. -/
theorem first_sector_sound : ∃ trace, ∃ s : System Bool BioCache BioTask,
    Run BioMoves (bioStart (oneDisk fun _ => 7)) trace s ∧ s.thread false = .inside 0 0 1 ∧
      s.thread true = .acquire 0 0 1 ∧ CacheSound (oneDisk fun _ => 7) s := by
  have asks : ∀ cache, BioMoves cache .idle () cache (.get 0 0) := fun _ => .call
  have locked := ((((Run.first : Run (ι := Bool) BioMoves (bioStart (oneDisk fun _ => 7)) _ _).step
    (i := false) (asks _)).step (i := true) (asks _)).step
    (i := false) (.step single_address_fresh rfl)).step
    (i := false) (.step single_address_fresh rfl)
  have run := (((locked.step
    (i := true) (.step single_address_fresh rfl)).step
    (i := false) (.step single_address_fresh rfl)).step
    (i := false) (.step single_address_fresh rfl)).step
    (i := false) (.step single_address_fresh rfl)
  exact ⟨_, _, run, rfl, rfl, block_cache_runs_sound run⟩

end Mftt
