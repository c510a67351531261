import Mftt.KmemHeap

/-!
# Allocation

`kmalloc` searches the pools for a free block, takes the smallest one that is large
enough out of its tree, gives back what is left of it and writes the canaries. On every
heap between calls it ends in one of a few ways, and in none of them an assertion about
the free blocks fails.
-/

namespace Mftt

open ByteMemory RedBlack Tiling

/-- The size of a block is a multiple of sixteen and covers its header. -/
theorem kmalloc_sizes (size : Nat) :
    64 ≤ (kmallocSizes size).2 ∧ (kmallocSizes size).2 % 16 = 0 ∧
      (kmallocSizes size).2 = (kmallocSizes size).1 + 16 := by
  simp only [kmallocSizes, KMEM_BLOCK_HEAD_SIZE, BLOCK_SIZE]
  split
  · simp
  · omega

/-- The block has room for the request between its canaries, unless the computation of
its size overflows. -/
theorem kmalloc_sizes_fit {size : Nat} (bound : size + 48 ≤ 2 ^ 64) :
    size + 32 ≤ (kmallocSizes size).2 := by
  simp only [kmallocSizes, CANARY_SIZE, KMEM_BLOCK_HEAD_SIZE]
  split
  · omega
  · omega

variable {m : Bytes} {turns need : Nat} {vs : List PoolView}

section Search

variable {v : PoolView}

theorem PoolGood.locked (good : PoolGood m v) :
    PoolState (setPoolField m v.pool .lock 1) v.pool { v.header with lock := 1 } ∅ v.pieces :=
  good.state.set_lock 1 (by decide)

/-- A block that `kmalloc` may take from a pool: none of those large enough is smaller. -/
structure BestFit (v : PoolView) (need b sz : Nat) (before after : List Piece) : Prop where
  split : v.pieces = before ++ ⟨b, sz, false⟩ :: after
  large : need ≤ sz
  least : ∀ p ∈ v.pieces, p.used = false → need ≤ p.size → sz ≤ p.size

/-- No free block of a pool is large enough. -/
def NoFit (v : PoolView) (need : Nat) : Prop := ∀ p ∈ v.pieces, p.used = false → p.size < need

/-- A pool that the search leaves behind: nothing in it fits, and its counter says that
nothing could. -/
def Passed (v : PoolView) (need : Nat) : Prop := NoFit v need ∧ freeTotal v.pieces < need

/-- The search of a locked pool finds a best fit, or there is none. -/
theorem search_pool (enough : 2 ^ 32 ≤ turns) (good : PoolGood m v) (need : Nat) :
    ∃ node, rbSearchUpper turns (freeTree (setPoolField m v.pool .lock 1) v.pool)
        (freeTree (setPoolField m v.pool .lock 1) v.pool).root need = .ok node ∧
      (node = .null → NoFit v need) ∧
      (node ≠ .null → node = nodeOf (blockOf node) ∧
        (need ≤ 64 → (nodeAt (setPoolField m v.pool .lock 1) node).L = .null) ∧
        ∃ sz before after, BestFit v need (blockOf node) sz before after) := by
  have state := good.locked
  obtain ⟨s, rest, rep⟩ := state.index
  have few := state.shape.few
  obtain ⟨node, returns, null, found⟩ := search_free turns need rep (by omega)
  have size : ∀ p ∈ v.pieces, p.used = false → p.start ∈ freeStarts v.pieces ∧
      blockField (setPoolField m v.pool .lock 1) p.start .size = p.size := fun p member unused =>
    ⟨mem_free_starts.mpr ⟨p, member, unused, rfl⟩, state.sizes p member unused⟩
  refine ⟨node, returns, fun none p member unused => ?_, fun some => ?_⟩
  · obtain ⟨free, sized⟩ := size p member unused
    rw [← sized]
    exact null none p.start free
  · obtain ⟨inside, same, large, least, bare⟩ := found some
    obtain ⟨q, member, unused, start⟩ := mem_free_starts.mp inside
    obtain ⟨before, after, split⟩ := List.append_of_mem member
    have sized := (size q member unused).2
    rw [start] at sized
    rw [sized] at large least
    refine ⟨same, fun small => bare fun x known => ?_, q.size, before, after, ?_, large,
      fun p other free bigger => ?_⟩
    · obtain ⟨r, other, free, rfl⟩ := mem_free_starts.mp known
      rw [(size r other free).2]
      exact small.trans (state.shape.within other).2.2
    · rw [split, ← start, ← unused]
    · obtain ⟨known, its⟩ := size p other free
      rw [← its]
      exact least p.start known (by rwa [its])

/-- The ways in which the search over the pools ends. -/
inductive SearchEnds (m : Bytes) (need : Nat) (vs : List PoolView) :
    Except Fault (NodePtr × Nat × Bytes) → Prop
  | found {pre post : List PoolView} {w : PoolView} {b sz : Nat} {before after : List Piece} :
      vs = pre ++ w :: post → (∀ v ∈ pre, Passed v need) → BestFit w need b sz before after →
      blockOf (nodeOf b) = b → nodeOf b ≠ .null →
      (need ≤ 64 → (nodeAt (setPoolField m w.pool .lock 1) (nodeOf b)).L = .null) →
      SearchEnds m need vs (.ok (nodeOf b, w.pool, setPoolField m w.pool .lock 1))
  | none : (∀ v ∈ vs, Passed v need) → SearchEnds m need vs (.ok (.null, 0, m))
  | fragmented {pre post : List PoolView} {w : PoolView} :
      vs = pre ++ w :: post → (∀ v ∈ pre, Passed v need) → NoFit w need →
      need ≤ freeTotal w.pieces →
      SearchEnds m need vs (.error (.kpanic "Kmem have free but cannot search tree."))

theorem SearchEnds.later {result : Except Fault (NodePtr × Nat × Bytes)} (first : Passed v need)
    (ends : SearchEnds m need vs result) : SearchEnds m need (v :: vs) result := by
  cases ends with
  | found split earlier fit back some bare =>
    exact .found (by rw [split, List.cons_append]) (List.forall_mem_cons.mpr ⟨first, earlier⟩) fit
      back some bare
  | none all => exact .none (List.forall_mem_cons.mpr ⟨first, all⟩)
  | fragmented split earlier small enough =>
    exact .fragmented (by rw [split, List.cons_append]) (List.forall_mem_cons.mpr ⟨first, earlier⟩)
      small enough

/-- One turn of the loop: the pool has a fitting block, or it is left as it was. -/
theorem search_turn (enough : 2 ^ 32 ≤ turns) (rounds : Nat) (good : PoolGood m v) (need : Nat) :
    SearchEnds m need (v :: vs)
        (searchPools turns (rounds + 1) (setPoolField m v.pool .lock 1) v.pool need) ∨
      Passed v need ∧
        searchPools turns (rounds + 1) (setPoolField m v.pool .lock 1) v.pool need =
          if v.next = 0 then .ok (.null, 0, m)
          else acquirePool m v.next >>= (searchPools turns rounds · v.next need) := by
  have state := good.locked
  have valid := state.shape.valid
  obtain ⟨node, returns, null, found⟩ := search_pool enough good need
  by_cases none : node = .null
  · have small := null none
    have free : poolField (setPoolField m v.pool .lock 1) v.pool .free = freeTotal v.pieces :=
      state.free_eq
    by_cases plenty : need ≤ freeTotal v.pieces
    · refine .inl ?_
      have ends : searchPools turns (rounds + 1) (setPoolField m v.pool .lock 1) v.pool need =
          .error (.kpanic "Kmem have free but cannot search tree.") := by
        simp only [searchPools, returns, bind_ok, none, if_true, free, plenty, kpanic]
      rw [ends]
      exact .fragmented (show v :: vs = [] ++ v :: vs from rfl) (by simp) small plenty
    · refine .inr ⟨⟨small, Nat.lt_of_not_le plenty⟩, ?_⟩
      have released := release_pool valid (by rw [state.lock_eq]; exact Nat.one_ne_zero)
      rw [lock_restore good.state.lock_eq] at released
      have next : poolField m v.pool .nextPool = v.next := good.state.next_eq
      simp only [searchPools, returns, bind_ok, none, free, plenty, released, next]
      rfl
  · refine .inl ?_
    obtain ⟨same, bare, sz, before, after, fit⟩ := found none
    have ends : searchPools turns (rounds + 1) (setPoolField m v.pool .lock 1) v.pool need =
        .ok (node, v.pool, setPoolField m v.pool .lock 1) := by
      simp only [searchPools, returns, bind_ok, none, if_false, pure_eq_ok]
    rw [ends]
    rw [same] at none bare ⊢
    exact .found (show v :: vs = [] ++ v :: vs from rfl) (by simp) fit (by rw [← same]) none bare

/-- The loop over the pools, which holds the lock of one pool at a time.

Proof: induction on the pools still to be searched. -/
theorem search_pools (enough : 2 ^ 32 ≤ turns) (rounds : Nat) (some : vs.length < rounds)
    (good : ∀ w ∈ v :: vs, PoolGood m w) (linked : Linked v.next vs) (need : Nat) :
    SearchEnds m need (v :: vs)
      (searchPools turns rounds (setPoolField m v.pool .lock 1) v.pool need) := by
  induction vs generalizing v rounds with
  | nil =>
    obtain ⟨rounds, rfl⟩ : ∃ k, rounds = k + 1 := ⟨rounds - 1, by omega⟩
    rcases search_turn enough rounds (good v (by simp)) need with ends | ⟨small, continues⟩
    · exact ends
    · have last : v.next = 0 := linked
      rw [continues, if_pos last]
      exact .none (by simpa using small)
  | cons w vs ih =>
    obtain ⟨rounds, rfl⟩ : ∃ k, rounds = k + 1 := ⟨rounds - 1, by omega⟩
    have goodW := good w (by simp)
    have next : v.next = w.pool := linked.1
    rcases search_turn enough rounds (good v (by simp)) need with ends | ⟨small, continues⟩
    · exact ends
    · have valid := goodW.state.shape.valid
      rw [continues, next, if_neg valid, acquire_pool valid goodW.state.lock_eq]
      simp only [List.length_cons] at some
      exact (ih rounds (by omega) (fun u member => good u (List.mem_cons_of_mem v member))
        linked.2).later small

end Search

variable {m' : Bytes} {pool b sz : Nat} {hd : PoolHeader} {limbo : Set Nat}
  {before after : List Piece}

/-- The part of a free block that is taken. -/
def takenSize (need sz : Nat) : Nat := if need + 64 ≤ sz then need else sz

/-- The free block that is left of it, if it is large enough to be one. -/
def leftover (need b sz : Nat) : List Piece :=
  if need + 64 ≤ sz then [⟨b + need, sz - need, false⟩] else []

/-- The blocks of a pool once a part of a free block has been taken. -/
def carve (need b sz : Nat) (before after : List Piece) : List Piece :=
  before ++ ⟨b, takenSize need sz, true⟩ :: (leftover need b sz ++ after)

/-- The header of a block that is no longer free and not yet in use. -/
structure LimboBlock (m : Bytes) (pool b sz : Nat) : Prop where
  cookie : blockField m b .cookie = KMEM_COOKIE
  sized : blockField m b .size = sz
  owner : blockField m b .pool = pool

theorem LimboBlock.congr (block : LimboBlock m pool b sz) (same : SameBlock m m' b) :
    LimboBlock m' pool b sz :=
  ⟨(same.field _).trans block.cookie, (same.field _).trans block.sized,
    (same.field _).trans block.owner⟩

variable {ps : List Piece} {w : PoolView}

/-- Writing a block in limbo. -/
theorem PoolState.scribble {p : Piece} (state : PoolState m pool hd limbo ps) (member : p ∈ ps)
    (used : p.used = true) (inside : p.start ∈ limbo)
    (changed : ChangedIn (span p.start p.size) m m') : PoolState m' pool hd limbo ps :=
  state.frame (changed.mono (PoolState.limbo_subset member used inside))

theorem changed_set_piece (m : Bytes) (b : Nat) (f : BlockField) (value : Nat) (large : 64 ≤ sz) :
    ChangedIn (span b sz) m (setBlockField m b f value) := by
  apply (changed_set_block m b f value).mono
  intro x inside
  simp only [Set.mem_Ico] at inside ⊢
  omega

/-- The remainder of a block is cut off and inserted. -/
theorem split_large (turns : Nat) (enough : 2 ^ 32 ≤ turns)
    (state : PoolState m pool hd {b} (before ++ ⟨b, sz, true⟩ :: after))
    (block : LimboBlock m pool b sz) (least : 64 ≤ need) (aligned : need % 16 = 0)
    (large : need + 64 ≤ sz) :
    ∃ m', splitBlock turns m pool b (need - 16) need = .ok (need - 16, m') ∧
      PoolState m' pool hd {b} (before ++ ⟨b, need, true⟩ :: ⟨b + need, sz - need, false⟩ ::
        after) ∧
      LimboBlock m' pool b need ∧ ChangedIn (span pool (40 + hd.size)) m m' ∧
      ∀ x, b + 8 ≤ x → x < b + need → m' x = m x := by
  have here : (⟨b, sz, true⟩ : Piece) ∈ before ++ ⟨b, sz, true⟩ :: after := by simp
  have place := state.shape.within here
  have small := state.shape.small
  simp only at place
  have valid : b ≠ 0 := by omega
  have left : subWord sz need = sz - need := sub_word_of_le (by omega) (by omega)
  have written : ChangedIn (span b sz) m (setBlockField m b .size need) :=
    changed_set_piece m b .size need (by omega)
  have cutState := (state.scribble here rfl rfl written).cut rfl least large aligned
  have arranged : before ++ ⟨b, need, true⟩ :: ⟨b + need, sz - need, true⟩ :: after =
      (before ++ [⟨b, need, true⟩]) ++ ⟨b + need, sz - need, true⟩ :: after := by simp
  rw [arranged] at cutState
  obtain ⟨m', inserts, state', changed⟩ := cutState.give enough
  have arranged' : (before ++ [⟨b, need, true⟩]) ++ ⟨b + need, sz - need, false⟩ :: after =
      before ++ ⟨b, need, true⟩ :: ⟨b + need, sz - need, false⟩ :: after := by simp
  rw [arranged'] at state' changed
  have taken : (⟨b, need, true⟩ : Piece) ∈
      before ++ ⟨b, need, true⟩ :: ⟨b + need, sz - need, false⟩ :: after := by simp
  refine ⟨m', ?_, ?_, ?_, ?_, fun x low high => ?_⟩
  · have enoughLeft : BLOCK_SIZE ≤ sz - need := by
      simp only [BLOCK_SIZE]
      omega
    have next : b + KMEM_BLOCK_HEAD_SIZE + (need - 16) = b + need := by
      simp only [KMEM_BLOCK_HEAD_SIZE]
      omega
    rw [splitBlock, read_block_of_ne valid, bind_ok, block.sized]
    dsimp only
    rw [left, if_pos enoughLeft, write_block_of_ne valid, bind_ok, next, assert_true _ rfl, bind_ok,
      inserts, bind_ok, pure_eq_ok]
  · refine state'.settle fun p member used inside outside => ?_
    -- the piece cut off is free again
    rcases inside with start | start
    · have free : (⟨b + need, sz - need, false⟩ : Piece) ∈
          before ++ ⟨b, need, true⟩ :: ⟨b + need, sz - need, false⟩ :: after := by simp
      obtain rfl := state'.shape.start_unique member free start
      cases used
    · exact absurd start outside
  · have kept : SameBlock (setBlockField m b .size need) m' b := by
      apply SameBlock.of_changed changed
      intro x inside
      apply state'.shape.free_scope_used (fun _ known => known) taken rfl
      simp only [Set.mem_Ico] at inside ⊢
      omega
    apply LimboBlock.congr _ kept
    have fits : need % 256 ^ BlockField.size.width = need :=
      Nat.mod_eq_of_lt (by simp only [BlockField.width]; omega)
    constructor <;> simp only [block_set_same, reduceCtorEq, if_true, if_false, fits, block.cookie,
      block.owner]
  · apply ChangedIn.trans (written.mono _) (changed.mono _)
    · intro x inside
      simp only [Set.mem_Ico] at inside ⊢
      omega
    · exact state'.shape.free_scope_inside (fun _ known => known)
  · have inserted : m' x = setBlockField m b .size need x := by
      apply changed
      apply state'.shape.free_scope_used (fun _ known => known) taken rfl
      simp only [Set.mem_Ico]
      omega
    rw [inserted]
    apply changed_store
    simp only [BlockField.offset, BlockField.width, Set.mem_Ico]
    omega

/-- What is left of the block is given back if it is large enough. -/
theorem split_spec (turns : Nat) (enough : 2 ^ 32 ≤ turns)
    (state : PoolState m pool hd {b} (before ++ ⟨b, sz, true⟩ :: after))
    (block : LimboBlock m pool b sz) (least : 64 ≤ need) (aligned : need % 16 = 0)
    (fits : need ≤ sz) :
    ∃ m', splitBlock turns m pool b (need - 16) need = .ok (takenSize need sz - 16, m') ∧
      PoolState m' pool hd {b} (carve need b sz before after) ∧
      LimboBlock m' pool b (takenSize need sz) ∧ ChangedIn (span pool (40 + hd.size)) m m' ∧
      ∀ x, b + 8 ≤ x → x < b + takenSize need sz → m' x = m x := by
  by_cases large : need + 64 ≤ sz
  · simp only [carve, takenSize, leftover, large]
    exact split_large turns enough state block least aligned large
  · simp only [carve, takenSize, leftover, large, if_false]
    have here : (⟨b, sz, true⟩ : Piece) ∈ before ++ ⟨b, sz, true⟩ :: after := by simp
    have place := state.shape.within here
    have small := state.shape.small
    simp only at place
    have valid : b ≠ 0 := by omega
    have left : subWord sz need = sz - need := sub_word_of_le (by omega) (by omega)
    have little : ¬BLOCK_SIZE ≤ sz - need := by
      simp only [BLOCK_SIZE]
      omega
    refine ⟨m, ?_, state, block, ChangedIn.refl _ _, fun _ _ _ => rfl⟩
    rw [splitBlock, read_block_of_ne valid, bind_ok, block.sized]
    rw [left, if_neg little, pure_eq_ok]

section Take

/-- The free bytes of a pool are those of the blocks in its tree. -/
theorem PoolState.blocks_total (state : PoolState m pool hd limbo ps) :
    blocksTotal m (freeStarts ps) = freeTotal ps := by
  have sizes : ∀ p ∈ freePieces ps, blockField m p.start .size = p.size := by
    intro p member
    obtain ⟨inside, unused⟩ := List.mem_filter.mp member
    exact state.sizes p inside (by simpa using unused)
  simp only [blocksTotal, freeStarts, List.map_map]
  exact congrArg List.sum (List.map_congr_left sizes)

section

variable (state : PoolState m pool hd limbo ps) (enough : 2 ^ 32 ≤ turns)
include state enough

theorem PoolState.check (counter : hd.free = freeTotal ps) :
    checkTotalsize turns m pool = .ok () := by
  obtain ⟨s, rest, rep⟩ := state.index
  have few := state.shape.few
  have small := state.shape.small
  have part := state.shape.free_total_le
  have total := state.blocks_total
  apply check_totalsize rep
  · omega
  · omega
  · rw [total, state.free_eq, counter]

theorem PoolState.validate (some : freeStarts ps ≠ []) : validateTree turns m pool = .ok () := by
  obtain ⟨s, rest, rep⟩ := state.index
  have few := state.shape.few
  exact validate_tree rep some (by omega)

theorem PoolState.validate_empty (none : freeStarts ps = []) :
    validateTree turns m pool = .error .nullPointer := by
  obtain ⟨s, rest, rep⟩ := state.index
  rw [none] at rep
  exact validate_tree_empty rep (by omega)

end

theorem taken_size_le (fits : need ≤ sz) : takenSize need sz ≤ sz := by
  unfold takenSize
  split <;> omega

theorem free_total_carve (need b sz : Nat) (before after : List Piece) :
    freeTotal (carve need b sz before after) + takenSize need sz =
      freeTotal (before ++ ⟨b, sz, false⟩ :: after) := by
  by_cases large : need + 64 ≤ sz
  · simp only [carve, takenSize, leftover, large, if_true, free_total_append, free_total_used,
      List.cons_append, List.nil_append, free_total_free]
    omega
  · simp only [carve, takenSize, leftover, large, if_false, free_total_append, free_total_used,
      List.nil_append, free_total_free]
    omega

/-- The header of a free block stays when it is taken out of the tree. -/
theorem PoolState.limbo_block {p : Piece} (state : PoolState m pool hd limbo ps) (member : p ∈ ps)
    (unused : p.used = false) (kept : HeaderKept m m' p.start) :
    LimboBlock m' pool p.start p.size := by
  obtain ⟨s, rest, rep⟩ := state.index
  obtain ⟨first, prev, next, block⟩ := rep.block (mem_free_starts.mpr ⟨p, member, unused, rfl⟩)
  exact ⟨kept.cookie.trans block.cookie, kept.sized.trans (state.sizes p member unused),
    kept.owner.trans block.owner⟩

/-- A block taken out of a pool, before its canaries are written. -/
structure Taken (m : Bytes) (pool : Nat) (hd : PoolHeader) (b n : Nat) (ps : List Piece)
    (m' : Bytes) : Prop where
  state : PoolState m' pool { hd with free := freeTotal ps, lock := 0 } {b} ps
  block : LimboBlock m' pool b n
  type : blockField m' b .type = KMEM_TYPE_INUSE
  changed : ChangedIn (span pool (40 + hd.size)) m m'
  kept : ∀ x, b + 64 ≤ x ∨ b + 32 ≤ x ∧ (nodeAt m (nodeOf b)).L = .null → x < b + n → m' x = m x

/-- The type of a block in limbo and the counter of its pool are written. -/
def markUsed (m : Bytes) (pool b free : Nat) : Bytes :=
  setPoolField (setBlockField m b .type KMEM_TYPE_INUSE) pool .free free

theorem PoolState.mark_used {n : Nat} (state : PoolState m' pool hd {b} ps)
    (here : ⟨b, n, true⟩ ∈ ps) (block : LimboBlock m' pool b n)
    (changed : ChangedIn (span pool (40 + hd.size)) m m')
    (kept : ∀ x, b + 64 ≤ x ∨ b + 32 ≤ x ∧ (nodeAt m (nodeOf b)).L = .null → x < b + n →
      m' x = m x) :
    PoolState (markUsed m' pool b (freeTotal ps)) pool { hd with free := freeTotal ps } {b} ps ∧
      Taken m pool hd b n ps (setPoolField (markUsed m' pool b (freeTotal ps)) pool .lock 0) := by
  have place := state.shape.within here
  have small := state.shape.small
  have part := state.shape.free_total_le
  simp only at place
  have written : ChangedIn (span b n) m' (setBlockField m' b .type KMEM_TYPE_INUSE) :=
    changed_set_piece m' b .type _ place.2.2
  have marked : PoolState (markUsed m' pool b (freeTotal ps)) pool
      { hd with free := freeTotal ps } {b} ps :=
    (state.scribble here rfl rfl written).set_free (freeTotal ps) (by omega)
  have field : ∀ f : BlockField, blockField (setPoolField (markUsed m' pool b (freeTotal ps)) pool
      .lock 0) b f = blockField (setBlockField m' b .type KMEM_TYPE_INUSE) b f := fun f => by
    rw [block_set_pool _ _ _ place.1, markUsed, block_set_pool _ _ _ place.1]
  refine ⟨marked, marked.set_lock 0 (by decide), ?_, ?_, ?_, ?_⟩
  · constructor <;> rw [field, block_set_same]
    · exact block.cookie
    · exact block.sized
    · exact block.owner
  · rw [field, block_set_same]
    rfl
  · have within : span b n ⊆ span pool (40 + hd.size) := by
      intro x known
      simp only [Set.mem_Ico] at known ⊢
      omega
    exact changed.trans ((written.mono within).trans
      ((changed_set_pool _ pool hd.size _ _).trans (changed_set_pool _ pool hd.size _ _)))
  · intro x behind high
    have outer : ∀ (m : Bytes) (f : PoolField) (value : Nat),
        setPoolField m pool f value x = m x := by
      intro m f value
      apply changed_store
      have := f.inside
      simp only [Set.mem_Ico]
      omega
    have header : setBlockField m' b .type KMEM_TYPE_INUSE x = m' x := by
      apply changed_store
      simp only [BlockField.offset, BlockField.width, Set.mem_Ico]
      omega
    rw [outer, markUsed, outer, header, kept x behind high]

/-- A free block is taken out of a locked pool. Where no other free block is left, the check of
the tree that follows reads through a null pointer. -/
theorem take_block_spec (turns : Nat) (enough : 2 ^ 32 ≤ turns)
    (state : PoolState m pool hd ∅ (before ++ ⟨b, sz, false⟩ :: after)) (locked : hd.lock = 1)
    (counter : hd.free = freeTotal (before ++ ⟨b, sz, false⟩ :: after)) (least : 64 ≤ need)
    (aligned : need % 16 = 0) (fits : need ≤ sz) :
    (freeStarts (carve need b sz before after) ≠ [] ∧
      ∃ m', takeBlock turns m pool b (need - 16) need = .ok (takenSize need sz - 16, m') ∧
        Taken m pool hd b (takenSize need sz) (carve need b sz before after) m') ∨
    (freeStarts (carve need b sz before after) = [] ∧
      takeBlock turns m pool b (need - 16) need = .error .nullPointer) := by
  have there : (⟨b, sz, false⟩ : Piece) ∈ before ++ ⟨b, sz, false⟩ :: after := by simp
  have free : b ∈ freeStarts (before ++ ⟨b, sz, false⟩ :: after) :=
    mem_free_starts.mpr ⟨_, there, rfl, rfl⟩
  have valid := state.shape.spread.ne_zero (free_subset _ b free)
  have validated := state.validate enough (List.ne_nil_of_mem free)
  obtain ⟨m₁, removes, state₁, kept₁, changed₁, bare⟩ := state.take enough
  rw [insert_empty_eq] at state₁
  obtain ⟨m₂, splits, state₂, block₂, changed₂, kept₂⟩ := split_spec turns enough state₁
    (state.limbo_block there rfl kept₁) least aligned fits
  have here : (⟨b, takenSize need sz, true⟩ : Piece) ∈ carve need b sz before after := by
    simp [carve]
  have kept : ∀ x, b + 64 ≤ x ∨ b + 32 ≤ x ∧ (nodeAt m (nodeOf b)).L = .null →
      x < b + takenSize need sz → m₂ x = m x := by
    intro x behind high
    have shorter := taken_size_le fits
    rw [kept₂ x (by omega) high]
    by_cases tail : b + 64 ≤ x
    · exact changed₁ x (state.shape.free_scope_tail (fun _ known => known) there tail
        (by simp only; omega))
    · have node := behind.resolve_left tail
      exact bare node.2 x ⟨by omega, by omega⟩
  have early := (changed₁.mono (state.shape.free_scope_inside fun _ known => known)).trans changed₂
  obtain ⟨marked, taken⟩ := state₂.mark_used here block₂ early kept
  have small := state.shape.small
  have part := state.shape.free_total_le
  have place := state₂.shape.within here
  have total := free_total_carve need b sz before after
  have begins : takeBlock turns m pool b (need - 16) need = (do
      validateTree turns (markUsed m₂ pool b (freeTotal (carve need b sz before after))) pool
      checkTotalsize turns (markUsed m₂ pool b (freeTotal (carve need b sz before after))) pool
      let m ← releasePool (markUsed m₂ pool b (freeTotal (carve need b sz before after))) pool
      pure (takenSize need sz - 16, m)) := by
    have written := state₂.scribble here rfl rfl
      (changed_set_piece m₂ b .type KMEM_TYPE_INUSE place.2.2)
    have count : subWord hd.free (takenSize need sz) =
        freeTotal (carve need b sz before after) := by
      rw [sub_word_of_le (by omega) (by omega)]
      omega
    rw [takeBlock, validated, bind_ok, removes, bind_ok, splits, bind_ok]
    dsimp only
    rw [write_block_of_ne valid, bind_ok, read_block_of_ne valid, bind_ok, block_set_same,
      if_neg (by decide), block₂.sized, written.free_eq, count, markUsed]
  rw [begins]
  by_cases none : freeStarts (carve need b sz before after) = []
  · exact .inr ⟨none, by rw [marked.validate_empty enough none]; rfl⟩
  · refine .inl ⟨none, _, ?_, taken⟩
    rw [marked.validate enough none, marked.check enough rfl,
      release_pool state.shape.valid (by rw [marked.lock_eq, locked]; exact Nat.one_ne_zero)]
    rfl

end Take

section Canaries

variable {n : Nat}

theorem changed_canaries (m : Bytes) (b : Nat) (large : 64 ≤ n) :
    ChangedIn (span (b + 16) (n - 16)) m (setCanaries m b (n - 16)) := by
  have first : ChangedIn (span (b + 16) (n - 16)) m (store m (b + 16) 8 KMEM_BEGIN_CANARY) := by
    apply (changed_store _ _ _ _).mono
    intro x inside
    simp only [Set.mem_Ico] at inside ⊢
    omega
  have second : ∀ m : Bytes, ChangedIn (span (b + 16) (n - 16)) m
      (store m (b + 16 + (n - 16) - 8) 8 KMEM_END_CANARY) := by
    intro m
    apply (changed_store _ _ _ _).mono
    intro x inside
    simp only [Set.mem_Ico] at inside ⊢
    omega
  have third : ∀ m : Bytes, ChangedIn (span (b + 16) (n - 16)) m
      (fill m (b + 16 + 8) (b + 16 + (n - 16) - 8 - (b + 16) - 2 * 8) 0#8) := by
    intro m
    apply (changed_fill _ _ _ _).mono
    intro x inside
    simp only [Set.mem_Ico] at inside ⊢
    omega
  exact first.trans ((second _).trans (third _))

/-- A block with its canaries is in use. -/
theorem used_block (block : LimboBlock m pool b n) (type : blockField m b .type = KMEM_TYPE_INUSE)
    (large : 64 ≤ n) : UsedBlock (setCanaries m b (n - 16)) pool ⟨b, n, true⟩ := by
  have front : ∀ f : BlockField, f.offset + f.width ≤ 16 →
      blockField (setCanaries m b (n - 16)) b f = blockField m b f := by
    intro f early
    apply (changed_canaries m b large).load
    intro x inside outside
    simp only [Set.mem_Ico] at inside outside
    omega
  have fits : ∀ a, load (setCanaries m b (n - 16)) a 8 = load (fill (store (store m (b + 16) 8
      KMEM_BEGIN_CANARY) (b + 16 + (n - 16) - 8) 8 KMEM_END_CANARY) (b + 16 + 8)
      (b + 16 + (n - 16) - 8 - (b + 16) - 2 * 8) 0#8) a 8 := fun a => rfl
  constructor
  · exact (front _ (by decide)).trans block.cookie
  · exact (front _ (by decide)).trans type
  · exact (front _ (by decide)).trans block.sized
  · exact (front _ (by decide)).trans block.owner
  · simp only
    rw [fits, load_fill_apart _ _ (by omega), load_store_apart _ _ (by omega), load_store]
    rfl
  · have place : b + n - 8 = b + 16 + (n - 16) - 8 := by omega
    simp only [place]
    rw [fits, load_fill_apart _ _ (by omega), load_store]
    rfl

theorem set_canaries_cleared (m : Bytes) (large : 64 ≤ n) {x : Nat} (low : b + 24 ≤ x)
    (high : x + 16 < b + n) : setCanaries m b (n - 16) x = 0#8 := by
  simp only [setCanaries, KMEM_BLOCK_HEAD_SIZE, CANARY_SIZE]
  exact if_pos ⟨by omega, by omega⟩

/-- The last eight are not written. -/
theorem set_canaries_kept (m : Bytes) (large : 64 ≤ n) {x : Nat} (low : b + n ≤ x + 16)
    (high : x + 8 < b + n) : setCanaries m b (n - 16) x = m x := by
  simp only [setCanaries, fill, store, KMEM_BLOCK_HEAD_SIZE, CANARY_SIZE]
  rw [if_neg (by omega), if_neg (by omega), if_neg (by omega)]

end Canaries

section Kmalloc

variable {h : KernelHeap} {size : Nat}

/-- There are at most as many pools as addresses. -/
theorem HeapRep.length_le (rep : HeapRep h vs) : vs.length ≤ 2 ^ 64 := by
  have distinct : (vs.map PoolView.pool).Nodup := by
    rw [List.Nodup, List.pairwise_map]
    refine rep.apart.imp fun {v w} apart same => ?_
    have left : v.pool ∈ v.extent := ⟨Nat.le_refl _, by omega⟩
    have right : v.pool ∈ w.extent := ⟨Nat.le_of_eq same.symm, by omega⟩
    exact Set.disjoint_left.mp apart left right
  have bounded : (vs.map PoolView.pool).toFinset ⊆ Finset.range (2 ^ 64) := by
    intro a member
    obtain ⟨v, inside, rfl⟩ := List.mem_map.mp (List.mem_toFinset.mp member)
    have bound := (rep.pools v inside).state.shape.bound
    exact Finset.mem_range.mpr (by omega)
  have count := Finset.card_le_card bounded
  rwa [List.toFinset_card_of_nodup distinct, List.length_map, Finset.card_range] at count

/-- The bytes of a block of `n` bytes that has been handed out from the memory `m`. They are
clear up to the last eight before the end canary, and those are left as they were; in blocks
for the smallest requests they held a pointer that was NULL. -/
structure FreshBlock (m : Bytes) (need b n : Nat) (m' : Bytes) : Prop where
  cleared : ∀ x, b + 24 ≤ x → x + 16 < b + n → m' x = 0#8
  stale : ∀ x, b + 64 ≤ x → b + n ≤ x + 16 → x + 8 < b + n → m' x = m x
  least : need ≤ 64 → ∀ x, b + 24 ≤ x → x < b + 56 → m' x = 0#8

/-- The ways in which a call of `kmalloc` ends. -/
inductive KmallocEnds (h : KernelHeap) (vs : List PoolView) (size : Nat) :
    Except Fault (Nat × KernelHeap) → Prop
  | allocated {pre post : List PoolView} {w : PoolView} {b sz : Nat} {before after : List Piece}
      {m' : Bytes} :
      vs = pre ++ w :: post → (∀ v ∈ pre, Passed v (kmallocSizes size).2) →
      BestFit w (kmallocSizes size).2 b sz before after →
      freeStarts (carve (kmallocSizes size).2 b sz before after) ≠ [] →
      HeapRep ⟨m', h.memoryPool, false⟩
        (pre ++ ⟨w.pool, w.next, carve (kmallocSizes size).2 b sz before after⟩ :: post) →
      ChangedIn w.extent h.bytes m' →
      FreshBlock h.bytes (kmallocSizes size).2 b (takenSize (kmallocSizes size).2 sz) m' →
      KmallocEnds h vs size (.ok (b + 24, ⟨m', h.memoryPool, false⟩))
  | none : vs ≠ [] → (∀ v ∈ vs, Passed v (kmallocSizes size).2) →
      KmallocEnds h vs size (.ok (0, { h with kmemLock := true }))
  | locked : h.kmemLock = true → KmallocEnds h vs size (.error (.kpanic "Acquired."))
  | noPool : vs = [] → KmallocEnds h vs size (.error .nullPointer)
  | fragmented {pre post : List PoolView} {w : PoolView} : vs = pre ++ w :: post →
      (∀ v ∈ pre, Passed v (kmallocSizes size).2) → NoFit w (kmallocSizes size).2 →
      (kmallocSizes size).2 ≤ freeTotal w.pieces →
      KmallocEnds h vs size (.error (.kpanic "Kmem have free but cannot search tree."))
  | lastBlock {pre post : List PoolView} {w : PoolView} {b sz : Nat} {before after : List Piece} :
      vs = pre ++ w :: post → (∀ v ∈ pre, Passed v (kmallocSizes size).2) →
      BestFit w (kmallocSizes size).2 b sz before after →
      freeStarts (carve (kmallocSizes size).2 b sz before after) = [] →
      KmallocEnds h vs size (.error .nullPointer)

theorem taken_size_ge (least : 64 ≤ need) (fits : need ≤ sz) : 64 ≤ takenSize need sz := by
  unfold takenSize
  split <;> omega

theorem size_carve (need b sz : Nat) (before after : List Piece) :
    ((carve need b sz before after).map Piece.size).sum =
      ((before ++ ⟨b, sz, false⟩ :: after).map Piece.size).sum := by
  by_cases large : need + 64 ≤ sz
  · simp only [carve, takenSize, leftover, large, if_true, List.map_append, List.map_cons,
      List.sum_append, List.sum_cons, List.cons_append, List.nil_append]
    omega
  · simp only [carve, takenSize, leftover, large, if_false, List.map_append, List.map_cons,
    List.nil_append]

/-- A pool from which a block has been taken, with the canaries of the block. -/
theorem Taken.good
    (taken : Taken m w.pool { w.header with lock := 1 } b (takenSize need sz)
      (carve need b sz before after) m')
    (fit : BestFit w need b sz before after) (least : 64 ≤ need)
    (some : freeStarts (carve need b sz before after) ≠ []) :
    PoolGood (setCanaries m' b (takenSize need sz - 16))
      ⟨w.pool, w.next, carve need b sz before after⟩ := by
  have here : (⟨b, takenSize need sz, true⟩ : Piece) ∈ carve need b sz before after := by
    simp [carve]
  have large := taken_size_ge least fit.large
  have inside : span (b + 16) (takenSize need sz - 16) ⊆ span b (takenSize need sz) := by
    intro x known
    simp only [Set.mem_Ico] at known ⊢
    omega
  have written := taken.state.scribble here rfl rfl ((changed_canaries m' b large).mono inside)
  have header : PoolView.header ⟨w.pool, w.next, carve need b sz before after⟩ =
      ⟨w.size, w.next, freeTotal (carve need b sz before after), 0⟩ := by
    simp only [PoolView.header, PoolView.size, size_carve, fit.split]
  refine ⟨?_, some⟩
  rw [header]
  refine written.settle fun p member used start _ => ?_
  obtain rfl := written.shape.start_unique member here start
  exact used_block taken.block taken.type large

section

variable
  (taken : Taken (setPoolField m w.pool .lock 1) w.pool { w.header with lock := 1 } b
    (takenSize need sz) (carve need b sz before after) m')
include taken

/-- Taking a block writes no byte outside its pool. -/
theorem Taken.changed_extent (fit : BestFit w need b sz before after) (least : 64 ≤ need) :
    ChangedIn w.extent m (setCanaries m' b (takenSize need sz - 16)) := by
  have here : (⟨b, takenSize need sz, true⟩ : Piece) ∈ carve need b sz before after := by
    simp [carve]
  have place := taken.state.shape.within here
  have large := taken_size_ge least fit.large
  simp only [PoolView.header] at place
  have inside : span (b + 16) (takenSize need sz - 16) ⊆ w.extent := by
    intro x known
    simp only [PoolView.extent, Set.mem_Ico] at known ⊢
    omega
  exact (changed_set_pool m w.pool w.size .lock 1).trans (taken.changed.trans
    ((changed_canaries m' b large).mono inside))

/-- What the block holds. -/
theorem Taken.fresh (good : PoolGood m w) (fit : BestFit w need b sz before after)
    (least : 64 ≤ need)
    (bare : need ≤ 64 → (nodeAt (setPoolField m w.pool .lock 1) (nodeOf b)).L = .null) :
    FreshBlock m need b (takenSize need sz) (setCanaries m' b (takenSize need sz - 16)) := by
  have here : (⟨b, takenSize need sz, true⟩ : Piece) ∈ carve need b sz before after := by
    simp [carve]
  have there : (⟨b, sz, false⟩ : Piece) ∈ w.pieces := by
    rw [fit.split]
    simp
  have place := taken.state.shape.within here
  have large := taken_size_ge least fit.large
  simp only [PoolView.header] at place
  constructor
  · exact fun x low high => set_canaries_cleared m' large low high
  · intro x behind low high
    rw [set_canaries_kept m' large low high, taken.kept x (.inl behind) (by omega)]
    apply changed_store
    simp only [PoolField.offset, PoolField.width, Set.mem_Ico]
    omega
  · intro smallest x low high
    by_cases front : x + 16 < b + takenSize need sz
    · exact set_canaries_cleared m' large low front
    · rw [set_canaries_kept m' large (by omega) (by omega),
        taken.kept x (.inr ⟨by omega, bare smallest⟩) (by omega)]
      obtain ⟨s, rest, rep⟩ := good.locked.index
      have free : b ∈ freeStarts w.pieces := mem_free_starts.mpr ⟨_, there, rfl, rfl⟩
      exact (rep.even b free).zero_bytes (rep.spread.even b free) (rep.spread.bound b free)
        (bare smallest) x ⟨by omega, by omega⟩

end

/-- `kmalloc` on every heap between calls. -/
theorem kmalloc_spec (enough : 2 ^ 64 ≤ turns) (rep : HeapRep h vs) (size : Nat) :
    KmallocEnds h vs size (kmalloc turns h size) := by
  obtain ⟨least, aligned, room⟩ := kmalloc_sizes size
  by_cases lock : h.kmemLock = true
  · have stops : kmalloc turns h size = .error (.kpanic "Acquired.") := by
      rw [kmalloc, acquireKmem, if_pos lock]
      rfl
    rw [stops]
    exact .locked lock
  have taken : acquireKmem h = .ok { h with kmemLock := true } := by
    rw [acquireKmem, if_neg lock]
    rfl
  cases vs with
  | nil =>
    have zero : h.memoryPool = 0 := rep.linked
    have stops : kmalloc turns h size = .error .nullPointer := by
      rw [kmalloc, taken]
      dsimp only
      rw [assert_true _ least, zero]
      rfl
    rw [stops]
    exact .noPool rfl
  | cons v vs =>
    have first : h.memoryPool = v.pool := rep.linked.1
    have good := rep.pools v (List.mem_cons_self ..)
    have count := rep.length_le
    simp only [List.length_cons] at count
    have begins : kmalloc turns h size =
        searchPools turns turns (setPoolField h.bytes v.pool .lock 1) v.pool
          (kmallocSizes size).2 >>= fun found =>
        if found.1 = .null then pure (0, ⟨found.2.2, h.memoryPool, true⟩)
        else
          takeBlock turns found.2.2 found.2.1 (blockOf found.1) (kmallocSizes size).1
            (kmallocSizes size).2 >>= fun part =>
          pure (blockOf found.1 + 24, ⟨setCanaries part.2 (blockOf found.1) part.1, h.memoryPool,
            false⟩) := by
      rw [kmalloc, taken]
      dsimp only
      rw [assert_true _ least, bind_ok, first,
        acquire_pool good.state.shape.valid good.state.lock_eq]
      rfl
    have many : 2 ^ 32 ≤ turns := by omega
    have ends := search_pools many turns (by omega) rep.pools rep.linked.2 (kmallocSizes size).2
    rw [begins]
    generalize searchPools turns turns (setPoolField h.bytes v.pool .lock 1) v.pool
      (kmallocSizes size).2 = result at ends
    cases ends with
    | none all =>
      exact .none (List.cons_ne_nil v vs) all
    | fragmented split earlier small plenty => exact .fragmented split earlier small plenty
    | @found pre post w b sz before after split earlier fit back some bare =>
      have member : w ∈ v :: vs := by
        rw [split]
        simp
      have state := (rep.pools w member).locked
      rw [fit.split] at state
      rw [bind_ok, if_neg some]
      simp only [back, show (kmallocSizes size).1 = (kmallocSizes size).2 - 16 by omega]
      have counter : w.header.free = freeTotal (before ++ ⟨b, sz, false⟩ :: after) := by
        rw [← fit.split]
        rfl
      rcases take_block_spec turns many state rfl counter least aligned fit.large with
        ⟨left, m', takes, took⟩ | ⟨gone, fails⟩
      · rw [takes]
        rw [split] at rep
        have within : ChangedIn w.extent h.bytes
            (setCanaries m' b (takenSize (kmallocSizes size).2 sz - 16)) :=
          took.changed_extent fit least
        have fresh := took.fresh (rep.pools w (by simp)) fit least bare
        refine .allocated split earlier fit left ?_ within fresh
        apply rep.exchange _ _ _ (took.good fit least left) within false
        · rfl
        · rfl
        · simp only [PoolView.size, size_carve, fit.split]
      · rw [fails]
        exact .lastBlock split earlier fit gone

end Kmalloc

end Mftt
