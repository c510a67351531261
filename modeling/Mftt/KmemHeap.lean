import Mftt.KmemPool

/-!
# The pools of the kernel heap

Pools are attached one after the other; each has the address of the one attached before
it. Between calls every pool is as it should be: no block is in limbo, the lock is free
and the counter of free bytes is right. A call works on one pool and leaves the bytes of
the others alone.
-/

namespace Mftt

open ByteMemory RedBlack Tiling

/-- A pool as seen between calls: its address, that of the pool attached before it, and
its blocks. -/
structure PoolView where
  pool : Nat
  next : Nat
  pieces : List Piece

namespace PoolView

/-- Size of all blocks. -/
def size (v : PoolView) : Nat := (v.pieces.map Piece.size).sum

/-- The bytes of a pool. -/
def extent (v : PoolView) : Set Nat := span v.pool (40 + v.size)

/-- The header of a pool between calls. -/
def header (v : PoolView) : PoolHeader := ⟨v.size, v.next, freeTotal v.pieces, 0⟩

end PoolView

/-- A pool between calls. Some block is always free: a `kmalloc` that took the last one
would not return. -/
structure PoolGood (m : Bytes) (v : PoolView) : Prop where
  state : PoolState m v.pool v.header ∅ v.pieces
  some : freeStarts v.pieces ≠ []

/-- The addresses of the pools. -/
def Linked : Nat → List PoolView → Prop
  | a, [] => a = 0
  | a, v :: vs => a = v.pool ∧ Linked v.next vs

/-- The kernel heap between calls. -/
structure HeapRep (h : KernelHeap) (vs : List PoolView) : Prop where
  linked : Linked h.memoryPool vs
  pools : ∀ v ∈ vs, PoolGood h.bytes v
  apart : vs.Pairwise fun v w => Disjoint v.extent w.extent

section Exchange

variable {h : KernelHeap} {m m' : Bytes} {vs pre post : List PoolView} {v w w' : PoolView}

/-- A pool depends on its own bytes only. -/
theorem PoolGood.congr (good : PoolGood m v) (changed : ChangedIn v.extentᶜ m m') :
    PoolGood m' v where
  state := by
    apply good.state.frame
    exact changed.mono fun _ outside => .inl outside
  some := good.some

theorem linked_exchange {a : Nat} (pool : w'.pool = w.pool) (next : w'.next = w.next)
    (linked : Linked a (pre ++ w :: post)) : Linked a (pre ++ w' :: post) := by
  induction pre generalizing a with
  | nil =>
    obtain ⟨here, rest⟩ := linked
    exact ⟨here.trans pool.symm, by rwa [next]⟩
  | cons v pre ih => exact ⟨linked.1, ih linked.2⟩

/-- The other pools lie apart from one of them. -/
theorem HeapRep.apart_of (rep : HeapRep h (pre ++ w :: post)) (member : v ∈ pre ∨ v ∈ post) :
    Disjoint v.extent w.extent := by
  obtain ⟨-, last, cross⟩ := List.pairwise_append.mp rep.apart
  rcases member with front | behind
  · exact cross v front w (List.mem_cons_self ..)
  · exact ((List.pairwise_cons.mp last).1 v behind).symm

/-- One pool is changed, in its own bytes. -/
theorem HeapRep.exchange (rep : HeapRep h (pre ++ w :: post)) (pool : w'.pool = w.pool)
    (next : w'.next = w.next) (size : w'.size = w.size) (good : PoolGood m' w')
    (changed : ChangedIn w.extent h.bytes m') (lock : Bool) :
    HeapRep ⟨m', h.memoryPool, lock⟩ (pre ++ w' :: post) where
  linked := linked_exchange pool next rep.linked
  pools v member := by
    simp only [List.mem_append, List.mem_cons] at member
    have others : ∀ v, v ∈ pre ∨ v ∈ post → PoolGood m' v := by
      intro v which
      have old := rep.pools v (by simp only [List.mem_append]; tauto)
      apply old.congr
      apply changed.mono
      exact fun x inside outside => Set.disjoint_left.mp (rep.apart_of which) outside inside
    rcases member with front | rfl | behind
    · exact others v (.inl front)
    · exact good
    · exact others v (.inr behind)
  apart := by
    have extent : w'.extent = w.extent := by simp only [PoolView.extent, pool, size]
    have old := rep.apart
    simp only [List.pairwise_append, List.pairwise_cons, List.mem_cons, forall_eq_or_imp] at old ⊢
    simpa only [extent] using old

end Exchange

section Header

variable {m : Bytes} {pool : Nat} {hd : PoolHeader} {limbo : Set Nat} {ps : List Piece}

theorem PoolState.set_lock (state : PoolState m pool hd limbo ps) (value : Nat)
    (bound : value < 256) :
    PoolState (setPoolField m pool .lock value) pool { hd with lock := value } limbo ps := by
  have written := state.set_field .lock value (by decide)
  have header : poolHeader (setPoolField m pool .lock value) pool = { hd with lock := value } := by
    rw [← state.header]
    simp only [poolHeader, pool_set_same, reduceCtorEq, if_false, PoolHeader.mk.injEq, true_and]
    exact Nat.mod_eq_of_lt bound
  rwa [header] at written

/-- The counter of free bytes is written. -/
theorem PoolState.set_free (state : PoolState m pool hd limbo ps) (value : Nat)
    (bound : value < 2 ^ 64) :
    PoolState (setPoolField m pool .free value) pool { hd with free := value } limbo ps := by
  have written := state.set_field .free value (by decide)
  have header : poolHeader (setPoolField m pool .free value) pool = { hd with free := value } := by
    rw [← state.header]
    simp only [poolHeader, pool_set_same, reduceCtorEq, if_false, PoolHeader.mk.injEq,
      true_and, and_true]
    exact Nat.mod_eq_of_lt bound
  rwa [header] at written

/-- Taking a lock and giving it back leaves no trace. -/
theorem lock_restore (free : poolField m pool .lock = 0) (value : Nat) :
    setPoolField (setPoolField m pool .lock value) pool .lock 0 = m := by
  have restored := store_restore m (pool + PoolField.lock.offset) PoolField.lock.width value
  rwa [show load m (pool + PoolField.lock.offset) PoolField.lock.width = 0 from free] at restored

theorem acquire_pool (valid : pool ≠ 0) (free : poolField m pool .lock = 0) :
    acquirePool m pool = .ok (setPoolField m pool .lock 1) := by
  simp [acquirePool, not_null_of_ne valid, free]

theorem release_pool (valid : pool ≠ 0) (held : poolField m pool .lock ≠ 0) :
    releasePool m pool = .ok (setPoolField m pool .lock 0) := by
  simp [releasePool, not_null_of_ne valid, held]

theorem changed_set_pool (m : Bytes) (pool size : Nat) (f : PoolField) (value : Nat) :
    ChangedIn (span pool (40 + size)) m (setPoolField m pool f value) := by
  apply (changed_store m (pool + f.offset) f.width value).mono
  intro x inside
  have := f.inside
  simp only [Set.mem_Ico] at inside ⊢
  omega

variable (state : PoolState m pool hd limbo ps)
include state

theorem PoolState.lock_eq : poolField m pool .lock = hd.lock := by
  rw [← state.header]
  rfl

theorem PoolState.free_eq : poolField m pool .free = hd.free := by
  rw [← state.header]
  rfl

theorem PoolState.next_eq : poolField m pool .nextPool = hd.next := by
  rw [← state.header]
  rfl

theorem PoolState.size_eq : poolField m pool .size = hd.size := by
  rw [← state.header]
  rfl

end Header

section Attach

variable {turns mem sz : Nat} {h h' : KernelHeap} {vs : List PoolView}

/-- The memory of a new pool before its block is inserted. -/
def freshPool (m : Bytes) (mem sz next : Nat) : Bytes :=
  let m := setPoolField (fill m mem POOL_SIZE 0#8) mem .lock 0
  let m := setPoolField m mem .lock 1
  let m := setPoolField m mem .size (sz - POOL_SIZE)
  let m := setPoolField m mem .free (poolField m mem .size)
  setPoolField m mem .nextPool next

theorem pool_fill (m : Bytes) (pool : Nat) (f : PoolField) :
    poolField (fill m pool POOL_SIZE 0#8) pool f = 0 := by
  have := f.inside
  apply load_fill_zero
  simp only [POOL_SIZE]
  omega

theorem changed_fresh_pool (m : Bytes) (mem sz next : Nat) (size : Nat) :
    ChangedIn (span mem (40 + size)) m (freshPool m mem sz next) := by
  have cleared : ChangedIn (span mem (40 + size)) m (fill m mem POOL_SIZE 0#8) := by
    apply (changed_fill m mem POOL_SIZE 0#8).mono
    intro x inside
    simp only [Set.mem_Ico, POOL_SIZE] at inside ⊢
    omega
  have set : ∀ (m : Bytes) (f : PoolField) (value : Nat),
      ChangedIn (span mem (40 + size)) m (setPoolField m mem f value) :=
    fun m => changed_set_pool m mem size
  exact cleared.trans ((set _ _ _).trans ((set _ _ _).trans ((set _ _ _).trans
    ((set _ _ _).trans (set _ _ _)))))

/-- A new pool has a single block, in limbo. -/
theorem fresh_pool_state (m : Bytes) {next : Nat} (valid : mem ≠ 0) (aligned : mem % 16 = 0)
    (large : 104 ≤ sz) (small : sz < 2 ^ 32) (bound : mem + sz ≤ 2 ^ 64) (known : next < 2 ^ 64) :
    PoolState (freshPool m mem sz next) mem ⟨sz - 40, next, sz - 40, 1⟩ {mem + 40}
      [⟨mem + 40, sz - 40, true⟩] := by
  have fits : (sz - POOL_SIZE) % 256 ^ PoolField.size.width = sz - 40 :=
    Nat.mod_eq_of_lt (by simp only [PoolField.width]; omega)
  have fits' : (sz - 40) % 256 ^ PoolField.free.width = sz - 40 :=
    Nat.mod_eq_of_lt (by simp only [PoolField.width]; omega)
  have link : next % 256 ^ PoolField.nextPool.width = next := Nat.mod_eq_of_lt known
  constructor
  · refine ⟨valid, aligned, by simp only; omega, by simp only; omega, ⟨rfl, ?_, ?_⟩, ?_⟩
    · simp only
      omega
    · rfl
    · intro p member
      rw [List.mem_singleton.mp member]
      simp only
      omega
  · simp only [freshPool, poolHeader, pool_set_same, if_true, fits, fits', link]
    rfl
  · simp
  · simp
  · refine ⟨.nil, fun _ => [], empty_free_rep valid ?_⟩
    simp only [freshPool, pool_set_same, reduceCtorEq, if_false, pool_fill]

theorem and_fifteen (mem : Nat) : mem &&& 0xF = mem % 16 := Nat.and_two_pow_sub_one_eq_mod mem 4

theorem HeapRep.pool_bound (rep : HeapRep h vs) : h.memoryPool < 2 ^ 64 := by
  obtain ⟨linked, pools, -⟩ := rep
  cases vs with
  | nil =>
    have zero : h.memoryPool = 0 := linked
    omega
  | cons v vs =>
    have first : h.memoryPool = v.pool := linked.1
    have bound := (pools v (List.mem_cons_self ..)).state.shape.bound
    omega

/-- `attach_to_memory_pool` up to the insertion of the first block. -/
theorem attach_begins (turns : Nat) (h : KernelHeap) (valid : mem ≠ 0) (aligned : mem % 16 = 0)
    (large : 40 < sz) (bound : mem + sz ≤ 2 ^ 64) :
    attachToMemoryPool turns h mem sz = (do
      let m ← insertIntoPool turns (freshPool h.bytes mem sz h.memoryPool) mem (mem + 40) (sz - 40)
      let m ← releasePool m mem
      pure { h with bytes := m, memoryPool := mem }) := by
  have locked : poolField (setPoolField (fill h.bytes mem POOL_SIZE 0#8) mem .lock 0) mem .lock = 0 :=
    by simp [pool_set_same]
  have fits : (sz - 40) % 256 ^ PoolField.size.width = sz - 40 :=
    Nat.mod_eq_of_lt (by simp only [PoolField.width]; omega)
  have total : mem + sz = mem + 40 + (sz - 40) := by omega
  have more : ¬sz ≤ POOL_SIZE := by
    simp only [POOL_SIZE]
    omega
  simp only [attachToMemoryPool, and_fifteen, aligned, ne_eq, not_true_eq_false, if_false, more,
    not_null_of_ne valid, bind_ok, acquire_pool valid locked, pool_set_same, if_true, reduceCtorEq,
    fits, show PoolField.free.width = PoolField.size.width from rfl, poolMem, total,
    assert_true, freshPool]

/-- `attach_to_memory_pool` adds a pool with a single free block, and writes no more than the
two headers. -/
theorem attach_spec (turns : Nat) (enough : 2 ^ 32 ≤ turns) (rep : HeapRep h vs) (valid : mem ≠ 0)
    (aligned : mem % 16 = 0) (large : 104 ≤ sz) (small : sz < 2 ^ 32) (bound : mem + sz ≤ 2 ^ 64)
    (apart : ∀ v ∈ vs, Disjoint (span mem sz) v.extent) :
    ∃ h', attachToMemoryPool turns h mem sz = .ok h' ∧ h'.kmemLock = h.kmemLock ∧
      HeapRep h' (⟨mem, h.memoryPool, [⟨mem + 40, sz - 40, false⟩]⟩ :: vs) ∧
      ChangedIn (span mem 104) h.bytes h'.bytes := by
  have fresh := fresh_pool_state h.bytes valid aligned large small bound rep.pool_bound
  obtain ⟨m', inserts, state, changed⟩ := fresh.give_alone enough
  have released := release_pool valid (by rw [state.lock_eq]; exact Nat.one_ne_zero)
  have final := state.set_lock 0 (by decide)
  have whole : 40 + (sz - 40) = sz := by omega
  have within : ChangedIn (span mem 104) h.bytes (setPoolField m' mem .lock 0) := by
    apply (changed_fresh_pool h.bytes mem sz h.memoryPool 64).trans
    apply (changed.mono ?_).trans (changed_set_pool m' mem 64 .lock 0)
    rintro x (root | header)
    · simp only [Set.mem_Ico] at root ⊢
      omega
    · simp only [freeStarts, freePieces, List.filter_cons, Bool.not_false, if_true, List.filter_nil,
        List.map_cons, List.map_nil, List.mem_singleton, Set.iUnion_iUnion_eq_left,
        Set.mem_Ico] at header ⊢
      omega
  refine ⟨⟨setPoolField m' mem .lock 0, mem, h.kmemLock⟩, ?_, rfl, ⟨⟨rfl, rep.linked⟩, ?_, ?_⟩,
    within⟩
  · rw [attach_begins turns h valid aligned (by omega) bound, inserts, bind_ok, released]
    rfl
  · intro v member
    rcases List.mem_cons.mp member with rfl | old
    · refine ⟨final.settle ?_, List.cons_ne_nil _ _⟩
      intro p single used
      rw [List.mem_singleton.mp single] at used
      cases used
    · apply (rep.pools v old).congr
      apply within.mono
      intro x inside outside
      refine Set.disjoint_left.mp (apart v old) ?_ outside
      simp only [Set.mem_Ico] at inside ⊢
      omega
  · refine List.pairwise_cons.mpr ⟨fun v member => ?_, rep.apart⟩
    have extent : PoolView.extent ⟨mem, h.memoryPool, [⟨mem + 40, sz - 40, false⟩]⟩ = span mem sz := by
      simp only [PoolView.extent, PoolView.size, List.map_cons, List.map_nil, List.sum_cons,
        List.sum_nil, Nat.add_zero, whole]
    rw [extent]
    exact apart v member

/-- A region that is too small for a block is not attached. -/
theorem attach_large (attached : attachToMemoryPool turns h mem sz = .ok h')
    (valid : mem ≠ 0) (aligned : mem % 16 = 0) (some : 40 < sz) (bound : mem + sz ≤ 2 ^ 64) :
    104 ≤ sz := by
  by_contra small
  have refused : ¬BLOCK_SIZE ≤ sz - 40 := by
    simp only [BLOCK_SIZE]
    omega
  have fails : insertIntoPool turns (freshPool h.bytes mem sz h.memoryPool) mem (mem + 40)
    (sz - 40) =
      .error (.kpanic "Mem size must be larger than minimal block size") := by
    simp [insertIntoPool, valid, assert, refused]
  rw [attach_begins turns h valid aligned some bound, fails] at attached
  cases attached

end Attach

end Mftt
