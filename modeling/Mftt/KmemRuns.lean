import Mftt.KmemFree

/-!
# Histories of the kernel heap

A history attaches pools, allocates and frees, in any order; in between the owners write
their payloads, and anything may write memory outside the pools. In every state reached
the blocks of a pool tile its memory, the free ones are those of its tree of lists, and
live payloads lie apart.
-/

namespace Mftt

open ByteMemory RedBlack Tiling

/-- The payload behind a pointer that `kmalloc` returned: what lies between the canaries
of its block. -/
def payload (m : Bytes) (p : Nat) : Set Nat :=
  Set.Ico p (p - 24 + blockField m (p - 24) .size - 8)

/-- The bytes that may be written between calls: live payloads and what lies outside the
attached regions. -/
def ownerScope (m : Bytes) (regions live : List (Nat × Nat)) : Set Nat :=
  {x | (∃ e ∈ live, x ∈ payload m e.1) ∨ ∀ r ∈ regions, x ∉ span r.1 r.2}

/-- The heaps that a history leads to, with the regions attached and the live pointers
with the sizes asked for. A block has a size of 32 bits, and so has a region. -/
inductive HeapReachable (turns : Nat) :
    KernelHeap → List (Nat × Nat) → List (Nat × Nat) → Prop
  | boot (bytes : Bytes) : HeapReachable turns ⟨bytes, 0, false⟩ [] []
  | attach {h h' : KernelHeap} {regions live : List (Nat × Nat)} {mem sz : Nat} :
      HeapReachable turns h regions live → mem ≠ 0 → mem % 16 = 0 → 40 < sz → sz < 2 ^ 32 →
      mem + sz ≤ 2 ^ 64 → (∀ r ∈ regions, Disjoint (span mem sz) (span r.1 r.2)) →
      attachToMemoryPool turns h mem sz = .ok h' →
      HeapReachable turns h' ((mem, sz) :: regions) live
  | kmalloc {h h' : KernelHeap} {regions live : List (Nat × Nat)} {size p : Nat} :
      HeapReachable turns h regions live → kmalloc turns h size = .ok (p, h') →
      HeapReachable turns h' regions (if p = 0 then live else (p, size) :: live)
  | kfree {h h' : KernelHeap} {regions live : List (Nat × Nat)} {e : Nat × Nat} :
      HeapReachable turns h regions live → e ∈ live → kfree turns h e.1 = .ok h' →
      HeapReachable turns h' regions (live.filter fun other => other.1 ≠ e.1)
  | owner {h : KernelHeap} {m : Bytes} {regions live : List (Nat × Nat)} :
      HeapReachable turns h regions live → ChangedIn (ownerScope h.bytes regions live) h.bytes m →
      HeapReachable turns { h with bytes := m } regions live

/-- The blocks of a pool as a reader of the memory finds them. -/
structure BlocksSound (m : Bytes) (pool : Nat) (ps : List Piece) : Prop where
  /-- The blocks tile the pool, and the size in each header leads to the next one. -/
  tiled : Tiles 64 (poolMem pool) (poolEnd m pool) ps
  sizes : ∀ p ∈ ps, blockField m p.start .size = p.size
  /-- Every block is either in use or free. -/
  types : ∀ p ∈ ps, if p.used = true then blockField m p.start .type = KMEM_TYPE_INUSE
    else hasFlag (blockField m p.start .type) KMEM_TYPE_FREE = true ∧
      hasFlag (blockField m p.start .type) KMEM_TYPE_INUSE = false
  /-- Every free block occurs once in the lists that hang off the nodes of the tree, which
  is a search tree. -/
  index : ∃ (nodes : List NodePtr) (rest : Nat → List Nat),
    (∀ turns, nodes.length ≤ turns →
      inorderWalk turns (freeTree m pool) (freeTree m pool).root = .ok nodes) ∧
    TreeSound (freeTree m pool) nodes.toFinset ∧
    (∀ p ∈ nodes, p = nodeOf (blockOf p) ∧
      FreeList m pool (nodeAt m p).key true 0 (blockOf p :: rest (blockOf p))) ∧
    (listed (nodes.map blockOf) rest).Perm (freeStarts ps) ∧ (freeStarts ps).Nodup
  /-- The counter of free bytes is right. -/
  counter : poolField m pool .free = freeTotal ps

/-- The assertions of `insert_into_pool` and `remove_from_pool`, and the checks of
sizes. -/
def guardedAsserts : List String :=
  ["Pool must be a valid pointer.", "Mem must be a valid pointer (Null protector).",
    "Mem size must be larger than minimal block size", "Existed Block invalid.",
    "Existed Block type mismatch.", "Existed Block not inside our pool.",
    "Exitsed but not same key.", "Have next but no next.", "list guard.", "Kmem block invalid.",
    "Kmem Block have not inserted into a pool.", "Not in tree but no prev",
    "Prev block is not valid.", "Prev block is not inside correct pool.",
    "Prev block's next is not current block.", "In tree but have prev.",
    "Next block is not valid.", "Next block is not inside correct pool.",
    "Next block's prev is not current block.", "Have no next but next not null.",
    "In tree but key is 0.", "Listed kmem block not same size.", "Size not match."]

variable {m : Bytes} {v : PoolView}

theorem free_not_inuse (first : Bool) (next : Nat) :
    hasFlag (freeType first next) KMEM_TYPE_INUSE = false := by
  unfold freeType
  cases first <;> split <;> decide

theorem PoolGood.sound (good : PoolGood m v) : BlocksSound m v.pool v.pieces where
  tiled := by
    rw [good.state.end_eq]
    exact good.state.shape.tiles
  sizes p member := by
    cases used : p.used with
    | true => exact (good.state.used p member used (Set.notMem_empty _)).sized
    | false => exact good.state.sizes p member used
  types p member := by
    cases used : p.used with
    | true => exact (good.state.used p member used (Set.notMem_empty _)).type
    | false =>
      obtain ⟨s, rest, rep⟩ := good.state.index
      obtain ⟨first, prev, next, block⟩ :=
        rep.block (mem_free_starts.mpr ⟨p, member, used, rfl⟩)
      simp only [block.type]
      exact ⟨has_free first next, free_not_inuse first next⟩
  index := by
    obtain ⟨s, rest, rep⟩ := good.state.index
    refine ⟨s.inorder, rest, fun turns enough => ?_, rep.tree.sound, fun p member => ?_,
      rep.members, rep.distinct⟩
    · rw [rep.root]
      exact walk_rep turns enough rep.tree.holds.focus
    · obtain ⟨head, -, same⟩ := rep.node_block member
      obtain ⟨size, list⟩ := rep.lists _ head
      have key := list.1.key
      rw [← same] at key
      rw [key]
      exact ⟨same, list⟩
  counter := good.state.free_eq

section Histories

variable {h h' : KernelHeap} {vs pre post : List PoolView} {w : PoolView}
  {regions live : List (Nat × Nat)} {turns : Nat} {p q : Piece}

/-- A live pointer belongs to a block in use that has room for what was asked for. -/
def Owns (vs : List PoolView) (e : Nat × Nat) : Prop :=
  ∃ v ∈ vs, ∃ p ∈ v.pieces, p.used = true ∧ e.1 = p.start + 24 ∧
    (e.2 + 48 ≤ 2 ^ 64 → e.2 + 32 ≤ p.size)

/-- What every history preserves. -/
structure HistoryInv (h : KernelHeap) (regions live : List (Nat × Nat)) (vs : List PoolView) :
    Prop where
  heap : HeapRep h vs
  attached : regions = vs.map fun v => (v.pool, 40 + v.size)
  distinct : (live.map Prod.fst).Nodup
  owned : ∀ e ∈ live, Owns vs e

/-- Blocks lie in the extent of their pool. -/
theorem PoolGood.piece_subset (good : PoolGood m v) (member : p ∈ v.pieces) :
    span p.start p.size ⊆ v.extent := by
  have place := good.state.shape.within member
  intro x inside
  simp only [PoolView.header, PoolView.extent, Set.mem_Ico] at place inside ⊢
  omega

/-- A byte belongs to one pool only. -/
theorem HeapRep.pool_unique (rep : HeapRep h vs) (left : v ∈ vs) (right : w ∈ vs) {x : Nat}
    (inLeft : x ∈ v.extent) (inRight : x ∈ w.extent) : v = w := by
  by_contra other
  exact Set.disjoint_left.mp (rep.apart.forall left right other) inLeft inRight

/-- A byte belongs to one block only. -/
theorem HeapRep.piece_unique (rep : HeapRep h vs) (left : v ∈ vs) (right : w ∈ vs)
    (inLeft : p ∈ v.pieces) (inRight : q ∈ w.pieces) {x : Nat} (first : x ∈ span p.start p.size)
    (second : x ∈ span q.start q.size) : v = w ∧ p = q := by
  have goodV := rep.pools v left
  have goodW := rep.pools w right
  obtain rfl := rep.pool_unique left right (goodV.piece_subset inLeft first)
    (goodW.piece_subset inRight second)
  exact ⟨rfl, goodV.state.shape.unique inLeft inRight first second⟩

theorem HeapRep.start_mem (rep : HeapRep h vs) (left : v ∈ vs) (inLeft : p ∈ v.pieces) :
    p.start ∈ span p.start p.size := by
  have large := ((rep.pools v left).state.shape.within inLeft).2.2
  simp only [Set.mem_Ico]
  omega

variable {e : Nat × Nat} {ps : List Piece} {msg : String}

/-- Owners keep their blocks when one pool is changed. -/
theorem Owns.exchange {next : Nat} (owns : Owns (pre ++ w :: post) e)
    (kept : ∀ p ∈ w.pieces, p.used = true → e.1 = p.start + 24 → p ∈ ps) :
    Owns (pre ++ ⟨w.pool, next, ps⟩ :: post) e := by
  obtain ⟨v, member, p, inside, used, pointer, room⟩ := owns
  simp only [List.mem_append, List.mem_cons] at member
  rcases member with front | rfl | behind
  · exact ⟨v, by simp [front], p, inside, used, pointer, room⟩
  · exact ⟨_, List.mem_append_right _ (List.mem_cons_self ..), p, kept p inside used pointer, used,
      pointer, room⟩
  · exact ⟨v, by simp [behind], p, inside, used, pointer, room⟩

theorem HeapRep.set_lock (rep : HeapRep h vs) (lock : Bool) :
    HeapRep { h with kmemLock := lock } vs := ⟨rep.linked, rep.pools, rep.apart⟩

theorem attached_exchange (size : PoolView.size ⟨w.pool, w.next, ps⟩ = w.size) :
    (pre ++ ⟨w.pool, w.next, ps⟩ :: post).map (fun v : PoolView => (v.pool, 40 + v.size)) =
      (pre ++ w :: post).map (fun v : PoolView => (v.pool, 40 + v.size)) := by
  simp only [List.map_append, List.map_cons, size]

/-- A step that attaches a pool. -/
theorem HistoryInv.attach {mem sz : Nat} (inv : HistoryInv h regions live vs)
    (enough : 2 ^ 64 ≤ turns) (valid : mem ≠ 0) (aligned : mem % 16 = 0) (some : 40 < sz)
    (small : sz < 2 ^ 32) (bound : mem + sz ≤ 2 ^ 64)
    (apart : ∀ r ∈ regions, Disjoint (span mem sz) (span r.1 r.2))
    (attached : attachToMemoryPool turns h mem sz = .ok h') :
    ∃ vs', HistoryInv h' ((mem, sz) :: regions) live vs' := by
  have large := attach_large attached valid aligned some bound
  have away : ∀ v ∈ vs, Disjoint (span mem sz) v.extent := by
    intro v member
    apply apart (v.pool, 40 + v.size)
    rw [inv.attached]
    exact List.mem_map.mpr ⟨v, member, rfl⟩
  obtain ⟨h₁, returns, -, rep, -⟩ := attach_spec turns (by omega) inv.heap valid aligned large small
    bound away
  obtain rfl : h₁ = h' := by
    rw [attached] at returns
    exact (Except.ok.inj returns).symm
  refine ⟨_, rep, ?_, inv.distinct, fun e member => ?_⟩
  · have size : 40 + (sz - 40 + 0) = sz := by omega
    rw [List.map_cons, ← inv.attached]
    simp only [PoolView.size, List.map_cons, List.map_nil, List.sum_cons, List.sum_nil, size]
  · obtain ⟨v, inside, rest⟩ := inv.owned e member
    exact ⟨v, List.mem_cons_of_mem _ inside, rest⟩

theorem taken_size_need {need sz : Nat} (fits : need ≤ sz) : need ≤ takenSize need sz := by
  unfold takenSize
  split <;> omega

/-- A step that allocates. -/
theorem HistoryInv.kmalloc {size p : Nat} (inv : HistoryInv h regions live vs)
    (enough : 2 ^ 64 ≤ turns) (allocated : kmalloc turns h size = .ok (p, h')) :
    ∃ vs', HistoryInv h' regions (if p = 0 then live else (p, size) :: live) vs' := by
  have ends := kmalloc_spec enough inv.heap size
  rw [allocated] at ends
  cases ends with
  | none some small => exact ⟨vs, inv.heap.set_lock true, inv.attached, inv.distinct, inv.owned⟩
  | @allocated pre post w b sz before after m' split earlier fit left rep changed fresh =>
    have memberW : w ∈ vs := by
      rw [split]
      simp
    have memberB : (⟨b, sz, false⟩ : Piece) ∈ w.pieces := by
      rw [fit.split]
      simp
    refine ⟨_, rep, ?_, ?_, ?_⟩
    · rw [attached_exchange, ← split, inv.attached]
      simp only [PoolView.size, size_carve, fit.split]
    · rw [if_neg (Nat.succ_ne_zero _), List.map_cons]
      refine List.nodup_cons.mpr ⟨fun clash => ?_, inv.distinct⟩
      -- a live pointer belongs to a block in use, and this block was free
      obtain ⟨e, member, pointer⟩ := List.mem_map.mp clash
      obtain ⟨v, inside, q, known, used, start, -⟩ := inv.owned e member
      have here := inv.heap.start_mem inside known
      have same : q.start = b := by omega
      have there := inv.heap.start_mem memberW memberB
      rw [same] at here
      obtain ⟨-, rfl⟩ := inv.heap.piece_unique inside memberW known memberB (same ▸ here) there
      cases used
    · rw [if_neg (Nat.succ_ne_zero _)]
      intro e member
      rcases List.mem_cons.mp member with rfl | old
      · have here : (⟨b, takenSize (kmallocSizes size).2 sz, true⟩ : Piece) ∈
            carve (kmallocSizes size).2 b sz before after := by simp [carve]
        refine ⟨_, List.mem_append_right _ (List.mem_cons_self ..), _, here, rfl, rfl,
          fun bound => ?_⟩
        exact (kmalloc_sizes_fit bound).trans (taken_size_need fit.large)
      · have owns := inv.owned e old
        rw [split] at owns
        apply owns.exchange
        intro q inside used _
        rw [fit.split] at inside
        simp only [carve, List.mem_append, List.mem_cons] at inside ⊢
        rcases inside with front | rfl | behind
        · exact .inl front
        · cases used
        · exact .inr (.inr (.inr behind))

/-- Blocks in use are not merged. -/
theorem mem_absorb {sz : Nat} {after : List Piece} (member : q ∈ after) (used : q.used = true) :
    q ∈ (absorb sz after).2 := by
  induction after generalizing sz with
  | nil => cases member
  | cons r after ih =>
    rw [absorb]
    split
    · exact member
    · next unused =>
      rcases List.mem_cons.mp member with rfl | behind
      · exact absurd used unused
      · exact ih behind

/-- A live pointer can be given back when the lock is free. -/
theorem HistoryInv.kfree_returns (inv : HistoryInv h regions live vs) (enough : 2 ^ 64 ≤ turns)
    (member : e ∈ live) (unlocked : h.kmemLock = false) :
    ∃ h', kfree turns h e.1 = .ok h' ∧
      ∃ vs', HistoryInv h' regions (live.filter fun other => other.1 ≠ e.1) vs' := by
  obtain ⟨w, inside, p, known, used, pointer, -⟩ := inv.owned e member
  obtain ⟨pre, post, split⟩ := List.append_of_mem inside
  obtain ⟨before, after, pieces⟩ := List.append_of_mem known
  obtain ⟨b, sz, mark⟩ := p
  subst used
  have heap := inv.heap
  rw [split] at heap
  obtain ⟨m', returns, rep, -⟩ := kfree_spec enough heap unlocked pieces
  refine ⟨⟨m', h.memoryPool, false⟩, by rw [pointer, returns], _, rep, ?_, ?_, ?_⟩
  · rw [attached_exchange, ← split, inv.attached]
    simp only [PoolView.size, size_give_back, pieces]
  · exact inv.distinct.sublist (List.filter_sublist.map Prod.fst)
  · intro other remaining
    obtain ⟨old, different⟩ := List.mem_filter.mp remaining
    have owns := inv.owned other old
    rw [split] at owns
    apply owns.exchange
    intro q within inUse start
    rw [pieces] at within
    simp only [giveBack, List.mem_append, List.mem_cons] at within ⊢
    rcases within with front | rfl | behind
    · exact .inl front
    · simp only [decide_not, Bool.not_eq_eq_eq_not, Bool.not_true, decide_eq_false_iff_not,
        pointer] at different
      exact absurd start different
    · exact .inr (.inr (mem_absorb behind inUse))

theorem kfree_locked_fails (lock : h.kmemLock = true) (p : Nat) :
    kfree turns h p = .error (.kpanic "Acquired.") := by
  rw [kfree, acquireKmem, if_pos lock]
  rfl

/-- A step that frees. -/
theorem HistoryInv.kfree (inv : HistoryInv h regions live vs) (enough : 2 ^ 64 ≤ turns)
    (member : e ∈ live) (freed : kfree turns h e.1 = .ok h') :
    ∃ vs', HistoryInv h' regions (live.filter fun other => other.1 ≠ e.1) vs' := by
  cases lock : h.kmemLock with
  | true =>
    rw [kfree_locked_fails lock] at freed
    cases freed
  | false =>
    obtain ⟨h₁, returns, vs', inv'⟩ := inv.kfree_returns enough member lock
    rw [freed] at returns
    cases returns
    exact ⟨vs', inv'⟩

/-- The payload of a live pointer is what lies between the canaries of its block. -/
theorem HistoryInv.payload_eq (inv : HistoryInv h regions live vs) (member : e ∈ live) :
    ∃ v ∈ vs, ∃ p ∈ v.pieces, p.used = true ∧ e.1 = p.start + 24 ∧
      (e.2 + 48 ≤ 2 ^ 64 → e.2 + 32 ≤ p.size) ∧ payload h.bytes e.1 = interior p := by
  obtain ⟨v, inside, p, known, used, pointer, room⟩ := inv.owned e member
  refine ⟨v, inside, p, known, used, pointer, room, ?_⟩
  have sized := ((inv.heap.pools v inside).state.used p known used (Set.notMem_empty _)).sized
  rw [payload, pointer, Nat.add_sub_cancel, sized]
  rfl

/-- Owners write payloads, and others write outside the pools. -/
theorem HistoryInv.owner (inv : HistoryInv h regions live vs)
    (changed : ChangedIn (ownerScope h.bytes regions live) h.bytes m) :
    HistoryInv { h with bytes := m } regions live vs where
  heap := by
    refine ⟨inv.heap.linked, fun v member => ?_, inv.heap.apart⟩
    have good := inv.heap.pools v member
    refine ⟨good.state.frame (changed.mono ?_), good.some⟩
    rintro x (⟨e, alive, inside⟩ | outside)
    · obtain ⟨w, other, p, known, used, -, -, same⟩ := inv.payload_eq alive
      rw [same] at inside
      by_cases here : x ∈ v.extent
      · have there := (inv.heap.pools w other).piece_subset known (interior_subset p inside)
        obtain rfl := inv.heap.pool_unique member other here there
        exact .inr ⟨p, known, used, .inr inside⟩
      · exact .inl here
    · refine .inl (outside (v.pool, 40 + v.size) ?_)
      rw [inv.attached]
      exact List.mem_map.mpr ⟨v, member, rfl⟩
  attached := inv.attached
  distinct := inv.distinct
  owned := inv.owned

/-- Every history keeps the invariant. -/
theorem HeapReachable.inv (enough : 2 ^ 64 ≤ turns) (reach : HeapReachable turns h regions live) :
    ∃ vs, HistoryInv h regions live vs := by
  induction reach with
  | boot bytes => exact ⟨[], ⟨rfl, by simp, .nil⟩, rfl, .nil, by simp⟩
  | attach _ valid aligned some small bound apart attached ih =>
    obtain ⟨vs, inv⟩ := ih
    exact inv.attach enough valid aligned some small bound apart attached
  | kmalloc _ allocated ih =>
    obtain ⟨vs, inv⟩ := ih
    exact inv.kmalloc enough allocated
  | kfree _ member freed ih =>
    obtain ⟨vs, inv⟩ := ih
    exact inv.kfree enough member freed
  | owner _ changed ih =>
    obtain ⟨vs, inv⟩ := ih
    exact ⟨vs, inv.owner changed⟩

/-- No assertion about the free blocks fails in a call of `kmalloc`. -/
theorem kmalloc_asserts (enough : 2 ^ 64 ≤ turns) (rep : HeapRep h vs)
    (guarded : msg ∈ guardedAsserts) (size : Nat) :
    kmalloc turns h size ≠ .error (.kpanic msg) := by
  have other : msg ≠ "Acquired." ∧ msg ≠ "Kmem have free but cannot search tree." := by
    revert msg
    decide
  intro fails
  have ends := kmalloc_spec enough rep size
  rw [fails] at ends
  cases ends with
  | locked lock => exact other.1 rfl
  | fragmented split earlier small plenty => exact other.2 rfl

/-- Nor in a call of `kfree` with a live pointer. -/
theorem kfree_asserts (enough : 2 ^ 64 ≤ turns) (inv : HistoryInv h regions live vs)
    (guarded : msg ∈ guardedAsserts) (member : e ∈ live) :
    kfree turns h e.1 ≠ .error (.kpanic msg) := by
  have other : msg ≠ "Acquired." := by
    revert msg
    decide
  intro fails
  cases lock : h.kmemLock with
  | true =>
    rw [kfree_locked_fails lock] at fails
    cases fails
    exact other rfl
  | false =>
    obtain ⟨h₁, returns, -⟩ := inv.kfree_returns enough member lock
    rw [fails] at returns
    cases returns

theorem HistoryInv.payload_apart {f : Nat × Nat} (inv : HistoryInv h regions live vs)
    (left : e ∈ live) (right : f ∈ live) (other : e.1 ≠ f.1) :
    Disjoint (payload h.bytes e.1) (payload h.bytes f.1) := by
  obtain ⟨v, inV, p, inP, -, pointer, -, same⟩ := inv.payload_eq left
  obtain ⟨w, inW, q, inQ, -, pointer', -, same'⟩ := inv.payload_eq right
  rw [same, same']
  refine Set.disjoint_left.mpr fun x first second => other ?_
  obtain ⟨-, rfl⟩ := inv.heap.piece_unique inV inW inP inQ (interior_subset p first)
    (interior_subset q second)
  rw [pointer, pointer']

end Histories

/-- In every history of the kernel heap: the blocks of every pool tile its memory, with
the free ones in its tree of lists and a right counter; no assertion about them fails in
any further call; and payloads of different live pointers lie apart, each with room for
what was asked for. -/
theorem kmem_histories_sound {turns : Nat} {h : KernelHeap} {regions live : List (Nat × Nat)}
    (enough : 2 ^ 64 ≤ turns) (reach : HeapReachable turns h regions live) :
    (∀ r ∈ regions, ∃ ps, BlocksSound h.bytes r.1 ps ∧ poolEnd h.bytes r.1 = r.1 + r.2) ∧
    (∀ msg ∈ guardedAsserts, (∀ size, kmalloc turns h size ≠ .error (.kpanic msg)) ∧
      ∀ e ∈ live, kfree turns h e.1 ≠ .error (.kpanic msg)) ∧
    (h.kmemLock = false → ∀ e ∈ live, ∃ h', kfree turns h e.1 = .ok h') ∧
    (live.Pairwise fun e f => Disjoint (payload h.bytes e.1) (payload h.bytes f.1)) ∧
    ∀ e ∈ live, e.2 + 48 ≤ 2 ^ 64 → Set.Ico e.1 (e.1 + e.2) ⊆ payload h.bytes e.1 := by
  obtain ⟨vs, inv⟩ := reach.inv enough
  refine ⟨fun r member => ?_, fun msg guarded => ⟨?_, ?_⟩, fun unlocked e member => ?_, ?_, ?_⟩
  · rw [inv.attached] at member
    obtain ⟨v, inside, rfl⟩ := List.mem_map.mp member
    have good := inv.heap.pools v inside
    refine ⟨v.pieces, good.sound, ?_⟩
    have size : v.header.size = v.size := rfl
    rw [good.state.end_eq, size, Nat.add_assoc]
  · exact kmalloc_asserts enough inv.heap guarded
  · exact fun e member => kfree_asserts enough inv guarded member
  · obtain ⟨h', returns, -⟩ := inv.kfree_returns enough member unlocked
    exact ⟨h', returns⟩
  · have distinct := inv.distinct
    rw [List.Nodup, List.pairwise_map] at distinct
    exact distinct.imp_of_mem fun left right other => inv.payload_apart left right other
  · intro e member bound x inside
    obtain ⟨v, inV, p, inP, -, pointer, room, same⟩ := inv.payload_eq member
    rw [same]
    simp only [interior, Set.mem_Ico] at inside ⊢
    omega

theorem page_attached_to (bytes : Bytes) : ∃ h, HeapReachable (2 ^ 64) h [(4096, 4096)] [] ∧
    HeapRep h [⟨4096, 0, [⟨4136, 4056, false⟩]⟩] ∧ h.kmemLock = false ∧
    ∀ x, 4200 ≤ x → h.bytes x = bytes x := by
  have empty : HeapRep ⟨bytes, 0, false⟩ [] := ⟨rfl, by simp, .nil⟩
  obtain ⟨h, returns, lock, rep, changed⟩ := attach_spec (2 ^ 64) (by decide) empty
    (show 4096 ≠ 0 by decide) (by decide) (show 104 ≤ 4096 by decide) (by decide) (by decide)
    (by simp)
  refine ⟨h, .attach (.boot _) (by decide) (by decide) (by decide) (by decide) (by decide) (by simp)
    returns, rep, lock, fun x behind => changed x ?_⟩
  simp only [Set.mem_Ico]
  omega

theorem page_attached : ∃ h, HeapReachable (2 ^ 64) h [(4096, 4096)] [] ∧
    HeapRep h [⟨4096, 0, [⟨4136, 4056, false⟩]⟩] ∧ h.kmemLock = false := by
  obtain ⟨h, reach, rep, lock, -⟩ := page_attached_to fun _ => 0
  exact ⟨h, reach, rep, lock⟩

/-- An allocation of eight bytes from it. -/
theorem page_history_sound : ∃ h p, HeapReachable (2 ^ 64) h [(4096, 4096)] [(p, 8)] ∧
    (∃ ps, BlocksSound h.bytes 4096 ps) ∧ Set.Ico p (p + 8) ⊆ payload h.bytes p := by
  obtain ⟨h, reach, rep, lock⟩ := page_attached
  have need : (kmallocSizes 8).2 = 64 := by decide
  have ends := kmalloc_spec (Nat.le_refl _) rep 8
  generalize found : kmalloc (2 ^ 64) h 8 = result at ends
  cases ends with
  | allocated split earlier fit left rep' changed fresh =>
    have next := HeapReachable.kmalloc reach found
    obtain ⟨pools, -, -, -, room⟩ := kmem_histories_sound (Nat.le_refl _) next
    obtain ⟨ps, sound, -⟩ := pools (4096, 4096) (List.mem_cons_self ..)
    exact ⟨_, _, next, ⟨ps, sound⟩, room _ (List.mem_cons_self ..) (show 8 + 48 ≤ 2 ^ 64 by decide)⟩
  | none some small =>
    have impossible := (small _ (List.mem_cons_self ..)).1 _ (List.mem_cons_self ..) rfl
    exact absurd impossible (by decide)
  | locked held =>
    rw [lock] at held
    cases held
  | noPool empty => cases empty
  | @fragmented pre post w split earlier small plenty =>
    have member : w ∈ pre ++ w :: post := by simp
    rw [← split] at member
    rw [List.mem_singleton.mp member] at small
    have impossible := small _ (List.mem_cons_self ..) rfl
    exact absurd impossible (by decide)
  | @lastBlock pre post w b sz before after split earlier fit gone =>
    have member : w ∈ pre ++ w :: post := by simp
    rw [← split] at member
    have pieces := fit.split
    rw [List.mem_singleton.mp member] at pieces
    have here : (⟨b, sz, false⟩ : Piece) ∈ before ++ ⟨b, sz, false⟩ :: after := by simp
    rw [← pieces] at here
    cases List.mem_singleton.mp here
    simp [need, carve, leftover, free_starts_append] at gone

end Mftt
