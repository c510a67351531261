import Mftt.BuddyInvariant

/-!
# Allocation and release keep the invariant

One free block is taken or one used block is given back at a time. An allocation
takes the first block of the smallest order that has one and gives back the lower
half once for each order it descends; a release takes the free buddy once for each
order it climbs and gives back the merged block at the end. The laws for whole
calls follow by induction on the number of orders above.
-/

namespace Mftt

open DyadicBlocks Function MemoryInfo

variable {m m' : MemoryInfo} {pages j : Nat} {free : Nat → List Nat} {used : Set Nat}

section Parts

variable {k : Nat}

/-- Flipping bits and changing counters touches no page and no part of the layout. -/
theorem xor_changed (m : MemoryInfo) (p k : Nat) (scope : Set Nat) :
    ChangedWithin m (xorBuddyMap m p k).2 scope :=
  ⟨rfl, rfl, rfl, rfl, rfl, fun _ _ => rfl, fun _ _ => rfl⟩

theorem set_count_changed (m : MemoryInfo) (k count : Nat) (scope : Set Nat) :
    ChangedWithin m (m.setCount k count) scope :=
  ⟨rfl, rfl, rfl, rfl, rfl, fun _ _ => rfl, fun _ _ => rfl⟩

/-- The lists and counters do not depend on the bit maps. -/
theorem Threads.xor (threads : Threads m free) (p k : Nat) : Threads (xorBuddyMap m p k).2 free :=
  ⟨threads.lists, threads.counts⟩

/-- The bits do not depend on links, list heads and counters. -/
theorem PairBits.links (bits : PairBits m pages free) (same : m.SameButLinks m') (count : Nat) :
    PairBits (m'.setCount k count) pages free := by
  rw [same]
  exact bits

/-- The two blocks of a pair share their bit. -/
theorem xor_pair_eq (m : MemoryInfo) {j' : Nat} (pair : j / 2 = j' / 2) :
    xorBuddyMap m (m.blockAddress k j) k = xorBuddyMap m (m.blockAddress k j') k := by
  simp only [xorBuddyMap, pair_of_block, pair]

theorem toggled_erase (unique : ∀ k, (free k).Nodup) (listed : j ∈ free k) (k' x : Nat) :
    x ∈ update free k ((free k).erase j) k' ↔
      (x ∈ free k' ↔ ¬(k' = k ∧ x = j)) := by
  rw [mem_erased unique]
  constructor
  · rintro ⟨member, other⟩
    exact iff_of_true member other
  · intro same
    by_cases here : k' = k ∧ x = j
    · obtain ⟨rfl, rfl⟩ := here
      exact absurd listed (by simpa using same)
    · exact ⟨same.mpr here, here⟩

theorem toggled_push (absent : j ∉ free k) (k' x : Nat) :
    x ∈ update free k (j :: free k) k' ↔ (x ∈ free k' ↔ ¬(k' = k ∧ x = j)) := by
  rw [mem_pushed]
  by_cases here : k' = k ∧ x = j
  · obtain ⟨rfl, rfl⟩ := here
    simp [absent]
  · simp [here]

variable (rep : Represents m pages free used)
include rep

theorem Represents.order_lt (listed : j ∈ free k) : k < MAX_BUDDY_ORDER := by
  by_contra above
  rw [rep.orders k (by omega)] at listed
  exact absurd listed (List.not_mem_nil)

theorem Represents.orders_update (bounded : k < MAX_BUDDY_ORDER) (blocks : List Nat) :
    ∀ k', MAX_BUDDY_ORDER ≤ k' → update free k blocks k' = [] := by
  intro k' above
  rw [update_of_ne (by omega)]
  exact rep.orders k' above

/-- A block in use passes the address check of a release. -/
theorem Represents.block_bounds (inUse : block k j ⊆ used) :
    m.usableMemoryStart ≤ m.blockAddress k j ∧ m.blockAddress k j < m.usableMemoryEnd := by
  have inside := (rep.partition.give inUse).inside k j (by simp)
  have fits := (rep.layout.fits inside).2
  simp only [blockAddress, pageAddress] at fits ⊢
  omega

/-- Taking a listed block as an allocation does: unlink it, count it off, flip the
bit of its pair. -/
theorem Represents.take (listed : j ∈ free k) :
    ∃ m', removeFromFreeList m (m.blockAddress k j) k = .ok m' ∧
      Represents
        (xorBuddyMap (m'.setCount k (m'.freeCount k - 1)) (m.blockAddress k j) k).2 pages
        (update free k ((free k).erase j)) (used ∪ block k j) ∧
      ChangedWithin m
        (xorBuddyMap (m'.setCount k (m'.freeCount k - 1)) (m.blockAddress k j) k).2
        (freePages pages used) ∧ m'.pagesInfo = m.pagesInfo := by
  have bounded := rep.order_lt listed
  obtain ⟨m', returns, same, threads, changed⟩ :=
    remove_threads rep.layout.toRegion rep.partition rep.threads listed
  have counted := changed.trans (set_count_changed m' k (m'.freeCount k - 1) _)
  refine ⟨m', returns, ⟨?_, rep.partition.take listed, rep.orders_update bounded _,
    threads.xor _ _, ?_⟩, counted.trans (xor_changed _ _ _ _), same.infos⟩
  · exact rep.layout.changed (counted.trans (xor_changed _ _ _ _))
  · rw [← counted.block_address]
    exact xor_pair_bits (rep.layout.changed counted) (rep.bits.links same _) bounded
      (rep.partition.inside k j listed) (toggled_erase rep.partition.unique listed)

/-- Giving back the lower half of a block as an allocation does: link it, count it,
flip the bit of its pair, which is also the pair of the higher half. -/
theorem Represents.giveLower (bounded : k < MAX_BUDDY_ORDER) (inUse : block k (2 * j) ⊆ used) :
    ∃ m', attachToFreeList m (m.blockAddress k (2 * j)) k = .ok m' ∧
      Represents
        (xorBuddyMap (m'.setCount k (m'.freeCount k + 1)) (m.blockAddress k (2 * j + 1)) k).2
        pages (update free k (2 * j :: free k)) (used \ block k (2 * j)) ∧
      ChangedWithin m
        (xorBuddyMap (m'.setCount k (m'.freeCount k + 1)) (m.blockAddress k (2 * j + 1)) k).2
        (freePages pages (used \ block k (2 * j))) ∧ m'.pagesInfo = m.pagesInfo := by
  obtain ⟨m', returns, same, threads, changed⟩ :=
    attach_threads rep.layout.toRegion rep.partition rep.threads inUse
  have counted := changed.trans (set_count_changed m' k (m'.freeCount k + 1) _)
  have given := rep.partition.give inUse
  refine ⟨m', returns, ⟨?_, given, rep.orders_update bounded _, threads.xor _ _, ?_⟩,
    counted.trans (xor_changed _ _ _ _), same.infos⟩
  · exact rep.layout.changed (counted.trans (xor_changed _ _ _ _))
  · rw [← counted.block_address, xor_pair_eq _ (by omega : (2 * j + 1) / 2 = 2 * j / 2)]
    exact xor_pair_bits (rep.layout.changed counted) (rep.bits.links same _) bounded
      (given.inside k (2 * j) (by simp)) (toggled_push (rep.partition.used_unlisted inUse))

/-- The value `xor_buddy_map` returns on a block in use: zero exactly when its buddy
is free. -/
theorem xor_returns {b : Nat} (below : k < MAX_BUDDY_ORDER - 1) (inUse : block k j ⊆ used)
    (pair : j / 2 = b / 2) (other : b ≠ j) :
    (xorBuddyMap m (m.blockAddress k j) k).1 = !decide (b ∈ free k) := by
  have absent := rep.partition.used_unlisted inUse
  have inside := (rep.partition.give inUse).inside k j (by simp)
  have old := rep.bits k below (j / 2) (pair_inside inside)
  simp only [xorBuddyMap, pair_of_block, check_bit_xor_bit, old]
  rcases Nat.mod_two_eq_zero_or_one j with even | odd
  · have left : 2 * (j / 2) = j := by omega
    have right : j + 1 = b := by omega
    simp [left, right, absent]
  · have left : 2 * (j / 2) = b := by omega
    have right : b + 1 = j := by omega
    simp [left, right, absent]

/-- Taking the free buddy of a block in use as a release does: the bit of the pair
is flipped first. -/
theorem Represents.takeBuddy {b : Nat} (pair : j / 2 = b / 2) (listed : b ∈ free k) :
    ∃ m', removeFromFreeList (xorBuddyMap m (m.blockAddress k j) k).2 (m.blockAddress k b) k =
        .ok m' ∧
      Represents (m'.setCount k (m'.freeCount k - 1)) pages
        (update free k ((free k).erase b)) (used ∪ block k b) ∧
      ChangedWithin m (m'.setCount k (m'.freeCount k - 1)) (freePages pages used) ∧
      m'.pagesInfo = m.pagesInfo := by
  have bounded := rep.order_lt listed
  have flipped := xor_changed m (m.blockAddress k j) k (freePages pages used)
  obtain ⟨m', returns, same, threads, changed⟩ := remove_threads
    (rep.layout.changed flipped).toRegion
    rep.partition (rep.threads.xor (m.blockAddress k j) k) listed
  have counted := flipped.trans (changed.trans (set_count_changed m' k (m'.freeCount k - 1) _))
  have bits : PairBits (xorBuddyMap m (m.blockAddress k j) k).2 pages
      (update free k ((free k).erase b)) := by
    rw [xor_pair_eq m pair]
    exact xor_pair_bits rep.layout rep.bits bounded (rep.partition.inside k b listed)
      (toggled_erase rep.partition.unique listed)
  refine ⟨m', returns, ⟨rep.layout.changed counted, rep.partition.take listed,
    rep.orders_update bounded _, threads, bits.links same _⟩, counted,
    same.infos⟩

/-- Giving back a block as a release does: the bit of its pair is flipped first. -/
theorem Represents.give (bounded : k < MAX_BUDDY_ORDER) (inUse : block k j ⊆ used) :
    ∃ m', attachToFreeList (xorBuddyMap m (m.blockAddress k j) k).2 (m.blockAddress k j) k =
        .ok m' ∧
      Represents (m'.setCount k (m'.freeCount k + 1)) pages
        (update free k (j :: free k)) (used \ block k j) ∧
      ChangedWithin m (m'.setCount k (m'.freeCount k + 1))
        (freePages pages (used \ block k j)) ∧ m'.pagesInfo = m.pagesInfo := by
  have given := rep.partition.give inUse
  have flipped := xor_changed m (m.blockAddress k j) k (freePages pages (used \ block k j))
  obtain ⟨m', returns, same, threads, changed⟩ := attach_threads
    (rep.layout.changed flipped).toRegion
    rep.partition (rep.threads.xor (m.blockAddress k j) k) inUse
  have counted := flipped.trans (changed.trans (set_count_changed m' k (m'.freeCount k + 1) _))
  have bits := xor_pair_bits rep.layout rep.bits bounded (given.inside k j (by simp))
    (toggled_push (rep.partition.used_unlisted inUse))
  refine ⟨m', returns, ⟨rep.layout.changed counted, given, rep.orders_update bounded _,
    threads, bits.links same _⟩, counted, same.infos⟩

end Parts

/-- What a successful allocation of block `j` does: the block was free, it is in use
now, its descriptors carry the attribute and one reference, and everything else it
writes lies in pages that were free before. -/
structure Allocates (m : MemoryInfo) (pages : Nat) (used : Set Nat) (order attr j : Nat)
    (m' : MemoryInfo) : Prop where
  represents : ∃ free', Represents m' pages free' (used ∪ block order j)
  fresh : Disjoint used (block order j)
  changed : ChangedWithin m m' (freePages pages used)
  infos : ∀ i ∈ block order j, m'.pagesInfo (m.pageId i) = { type := attr % 2 ^ 16, reference := 1 }

variable {order : Nat}

section Allocation

variable {m₁ : MemoryInfo} {free' : Nat → List Nat} {scope : Set Nat}

/-- Writing the descriptors of a block, by its address before the change. -/
theorem Represents.describe {used' : Set Nat} (rep : Represents m' pages free' used')
    (changed : ChangedWithin m m' scope) (info : PageInfo) :
    Represents (m'.setPages (m.blockAddress order j) (2 ^ order) info) pages free' used' := by
  rw [← changed.block_address]
  exact rep.set_pages info

/-- The last step of an allocation writes the descriptors of the block. -/
theorem Allocates.describe (attr : Nat) (rep : Represents m' pages free' (used ∪ block order j))
    (fresh : Disjoint used (block order j)) (changed : ChangedWithin m m' (freePages pages used)) :
    Allocates m pages used order attr j
      (m'.setPages (m.blockAddress order j) (2 ^ order)
        { type := attr % 2 ^ 16, reference := 1 }) := by
  have within : block order j ⊆ freePages pages used := by
    intro i member
    exact ⟨rep.partition.usedInside i (.inr member),
      fun inUse => Set.disjoint_left.mp fresh inUse member⟩
  rw [← changed.block_address]
  obtain ⟨infos, described⟩ := set_block_infos m' order j { type := attr % 2 ^ 16, reference := 1 }
  refine ⟨⟨free', rep.set_pages _⟩, fresh, changed.trans (described.mono within), ?_⟩
  rw [← changed.page_id]
  exact infos

/-- Halves of a block, by address. -/
theorem lower_half_address (m : MemoryInfo) (k j : Nat) :
    m.blockAddress (k + 1) j = m.blockAddress k (2 * j) := by
  rw [block_address_inj, Nat.pow_succ']
  simp only [Nat.mul_left_comm, Nat.mul_assoc]

theorem upper_half_address (m : MemoryInfo) (k j : Nat) :
    m.blockAddress k (2 * j) + 2 ^ k * PG_SIZE = m.blockAddress k (2 * j + 1) := by
  simp only [blockAddress, pageAddress, PG_SIZE, Nat.add_mul]
  omega

/-- A block in use without its lower half. -/
theorem used_upper_half {k : Nat} (fresh : Disjoint used (block (k + 1) j)) :
    (used ∪ block (k + 1) j) \ block k (2 * j) = used ∪ block k (2 * j + 1) := by
  have apart : Disjoint (block k (2 * j + 1)) (block k (2 * j)) := block_disjoint (by omega)
  rw [block_succ] at fresh ⊢
  rw [Set.disjoint_union_right] at fresh
  ext i
  have outside : i ∈ used → i ∉ block k (2 * j) := fun inUse => Set.disjoint_left.mp fresh.1 inUse
  have other : i ∈ block k (2 * j + 1) → i ∉ block k (2 * j) :=
    fun upper => Set.disjoint_left.mp apart upper
  simp only [Set.mem_sdiff, Set.mem_union]
  tauto

/-- The branch of an allocation that finds a block of its own order. -/
theorem allocate_listed (above attr : Nat) (counted : m.freeCount order ≠ 0)
    (valid : m.freeList order ≠ 0)
    (removed : removeFromFreeList m (m.freeList order) order = .ok m₁) :
    allocatePagesOfPower2 (above + 1) order attr m = .ok (m.freeList order,
      (xorBuddyMap (m₁.setCount order (m₁.freeCount order - 1)) (m.freeList order)
        order).2.setPages (m.freeList order) (2 ^ order)
          { type := attr % 2 ^ 16, reference := 1 }) := by
  simp only [allocatePagesOfPower2, counted, if_false, removed, bind_ok, pure_eq_ok, valid]

/-- An allocation returns NULL when its list is empty and the next order has nothing. -/
theorem allocate_refused (above attr : Nat) (none : m.freeCount order = 0)
    (returns : allocatePagesOfPower2 above (order + 1) 0 m = .ok (0, m)) :
    allocatePagesOfPower2 (above + 1) order attr m = .ok (0, m) := by
  simp only [allocatePagesOfPower2, none, if_true, returns, bind_ok, pure_eq_ok]

/-- What an allocation returns when its list is empty and the next order gives a block: the upper
half of that block, whose lower half goes on the list. -/
theorem allocate_halved (above attr : Nat) {m₂ : MemoryInfo} (none : m.freeCount order = 0)
    (valid : m.blockAddress order (2 * j) ≠ 0) (upper : m.blockAddress order (2 * j + 1) ≠ 0)
    (returns : allocatePagesOfPower2 above (order + 1) 0 m = .ok (m.blockAddress (order + 1) j, m₁))
    (attached : attachToFreeList m₁ (m.blockAddress order (2 * j)) order = .ok m₂) :
    allocatePagesOfPower2 (above + 1) order attr m = .ok (m.blockAddress order (2 * j + 1),
      (xorBuddyMap (m₂.setCount order (m₂.freeCount order + 1))
        (m.blockAddress order (2 * j + 1)) order).2.setPages (m.blockAddress order (2 * j + 1))
          (2 ^ order) { type := attr % 2 ^ 16, reference := 1 }) := by
  rw [lower_half_address] at returns
  simp only [allocatePagesOfPower2, none, if_true, returns, bind_ok, valid, if_false, attached,
    upper_half_address, upper, pure_eq_ok]

/-- Writing the descriptors of a block keeps those of other pages. -/
theorem described_outside (changed : ChangedWithin m m' scope) (region : Region m' pages)
    (info : PageInfo) {i : Nat} (outside : i ∉ block order j) :
    (m'.setPages (m.blockAddress order j) (2 ^ order) info).pagesInfo (m.pageId i) =
      m'.pagesInfo (m.pageId i) := by
  rw [← changed.block_address, ← changed.page_id]
  exact (set_block_infos m' order j info).2.info region outside

/-- An allocation from the list of its own order takes a block of it, and writes the descriptors
of this block only. -/
theorem Represents.allocate_first (rep : Represents m pages free used) (above attr : Nat)
    (some : free order ≠ []) :
    ∃ j m', allocatePagesOfPower2 (above + 1) order attr m = .ok (m.blockAddress order j, m') ∧
      Allocates m pages used order attr j m' ∧
      Represents m' pages (update free order ((free order).erase j))
        (used ∪ block order j) ∧
      ∀ i, i ∉ block order j → m'.pagesInfo (m.pageId i) = m.pagesInfo (m.pageId i) := by
  obtain ⟨j, rest, first⟩ := List.exists_cons_of_ne_nil some
  have listed : j ∈ free order := by simp [first]
  have head : m.freeList order = m.blockAddress order j := by
    rw [ListSegment.segment_first (rep.threads.lists order).1, first]
    rfl
  obtain ⟨m₁, removed, rep₁, changed, kept⟩ := rep.take listed
  refine ⟨j, _, ?_, Allocates.describe attr rep₁ (rep.partition.free_unused listed) changed,
    rep₁.describe changed _, fun i outside => ?_⟩
  · rw [← head] at removed ⊢
    refine allocate_listed above attr ?_ (head ▸ rep.layout.block_ne_zero) removed
    rw [rep.threads.counts, List.length_eq_zero_iff.ne]
    exact some
  · rw [described_outside changed rep₁.layout.toRegion _ outside]
    exact congrFun kept _

/-- An allocation whose list is empty takes the upper half of a block of the next order. The lower
half keeps the descriptors that it got with that block. -/
theorem Allocates.halve {above : Nat} {free₁ : Nat → List Nat}
    (allocated : Allocates m pages used (order + 1) 0 j m₁) (layout : Layout m pages)
    (rep₁ : Represents m₁ pages free₁ (used ∪ block (order + 1) j))
    (bounded : order < MAX_BUDDY_ORDER) (attr : Nat) (none : m.freeCount order = 0)
    (returns : allocatePagesOfPower2 above (order + 1) 0 m =
      .ok (m.blockAddress (order + 1) j, m₁)) :
    ∃ m', allocatePagesOfPower2 (above + 1) order attr m =
        .ok (m.blockAddress order (2 * j + 1), m') ∧
      Allocates m pages used order attr (2 * j + 1) m' ∧
      Represents m' pages (update free₁ order (2 * j :: free₁ order))
        (used ∪ block order (2 * j + 1)) ∧
      ∀ i, i ∉ block order (2 * j + 1) →
        m'.pagesInfo (m.pageId i) = m₁.pagesInfo (m.pageId i) := by
  have lower : block order (2 * j) ⊆ used ∪ block (order + 1) j := by
    rw [block_succ]
    exact fun i member => .inr (.inl member)
  obtain ⟨m₂, attached, rep₂, changed, kept⟩ := rep₁.giveLower bounded lower
  rw [used_upper_half allocated.fresh] at rep₂ changed
  have fresh : Disjoint used (block order (2 * j + 1)) := by
    refine allocated.fresh.mono_right ?_
    rw [block_succ]
    exact Set.subset_union_right
  have within : freePages pages (used ∪ block order (2 * j + 1)) ⊆ freePages pages used :=
    fun i member => ⟨member.1, fun inUse => member.2 (.inl inUse)⟩
  have wrote := allocated.changed.trans (changed.mono within)
  rw [allocated.changed.block_address] at attached wrote rep₂
  refine ⟨_, allocate_halved above attr none layout.block_ne_zero layout.block_ne_zero returns
    attached, Allocates.describe attr rep₂ fresh wrote, rep₂.describe wrote _,
    fun i outside => ?_⟩
  rw [described_outside wrote rep₂.layout.toRegion _ outside]
  exact congrFun kept _

/-- `allocate_pages_of_power_2` always returns. It returns NULL and leaves everything
as it was when every list from its order on is empty, and allocates a block
otherwise, without two buddies left free.

Proof: induction on the orders above. A nonempty list gives its first block. An
empty one asks the next order; the block obtained there is given back by half. -/
theorem allocate_coalesces (above order attr : Nat) (total : order + above = MAX_BUDDY_ORDER)
    (rep : Represents m pages free used) :
    (allocatePagesOfPower2 above order attr m = .ok (0, m) ∧ ∀ k, order ≤ k → free k = []) ∨
    ∃ j m', allocatePagesOfPower2 above order attr m = .ok (m.blockAddress order j, m') ∧
      Allocates m pages used order attr j m' ∧ (∃ k, order ≤ k ∧ free k ≠ []) ∧
      ∃ free', Represents m' pages free' (used ∪ block order j) ∧
        (Coalesced (MAX_BUDDY_ORDER - 1) free → Coalesced (MAX_BUDDY_ORDER - 1) free') := by
  induction above generalizing order attr m with
  | zero => exact .inl ⟨rfl, fun k large => rep.orders k (by omega)⟩
  | succ above ih =>
    by_cases empty : free order = []
    · have empties : m.freeCount order = 0 := by
        rw [rep.threads.counts order, empty, List.length_nil]
      rcases ih (order + 1) 0 (by omega) rep with
        ⟨returns, none⟩ | ⟨j, m₁, returns, allocated, ⟨k, larger, some⟩, free₁, rep₁, keeps⟩
      · refine .inl ⟨allocate_refused above attr empties returns, fun k large => ?_⟩
        rcases Nat.eq_or_lt_of_le large with rfl | larger
        · exact empty
        · exact none k larger
      · obtain ⟨m₂, gives, halved, rep₂, -⟩ :=
          allocated.halve rep.layout rep₁ (by omega) attr empties returns
        -- The upper half stays in use.
        have upper : 2 * j + 1 ∉ free₁ order := by
          refine rep₁.partition.used_unlisted ?_
          rw [block_succ]
          exact fun i member => .inr (.inr member)
        have pair : 2 * j / 2 = (2 * j + 1) / 2 := by omega
        exact .inr ⟨2 * j + 1, m₂, gives, halved, ⟨k, by omega, some⟩, _, rep₂,
          fun coalesced => (keeps coalesced).push pair (by omega) fun _ => upper⟩
    · obtain ⟨j, m₁, returns, allocated, rep₁, -⟩ := rep.allocate_first above attr empty
      exact .inr ⟨j, m₁, returns, allocated, ⟨order, le_rfl, empty⟩, _, rep₁,
        fun coalesced => coalesced.erase rep.partition.unique order j⟩

theorem allocate_spec (above order attr : Nat) (total : order + above = MAX_BUDDY_ORDER)
    (rep : Represents m pages free used) :
    (allocatePagesOfPower2 above order attr m = .ok (0, m) ∧ ∀ k, order ≤ k → free k = []) ∨
    ∃ j m', allocatePagesOfPower2 above order attr m = .ok (m.blockAddress order j, m') ∧
      Allocates m pages used order attr j m' ∧ ∃ k, order ≤ k ∧ free k ≠ [] := by
  rcases allocate_coalesces above order attr total rep with
    none | ⟨j, m', returns, allocated, found, -⟩
  · exact .inl none
  · exact .inr ⟨j, m', returns, allocated, found⟩

end Allocation

section Release

/-- Descriptors and counters are written in either order. -/
theorem set_count_set_pages (m : MemoryInfo) (p count k value : Nat) (info : PageInfo) :
    (m.setPages p count info).setCount k value = (m.setCount k value).setPages p count info := by
  induction count with
  | zero => rfl
  | succ n ih =>
    simp only [setPages]
    rw [← ih]
    rfl

/-- The buddy that a release computes: the block after an even one, the block before
an odd one. -/
def buddyOf (j : Nat) : Nat := if j % 2 = 0 then j + 1 else j - 1

theorem buddy_pair (j : Nat) : j / 2 = buddyOf j / 2 := by
  unfold buddyOf
  split <;> omega

theorem buddy_ne (j : Nat) : buddyOf j ≠ j := by
  unfold buddyOf
  split <;> omega

/-- Its address, as the source computes it. -/
theorem buddy_address (m : MemoryInfo) (k j : Nat) :
    (if j * 2 ^ k = j / 2 * 2 ^ (k + 1)
      then m.blockAddress k j + 2 ^ k * PG_SIZE else m.blockAddress k j - 2 ^ k * PG_SIZE) =
      m.blockAddress k (buddyOf j) := by
  have positive := Nat.two_pow_pos k
  have even : j * 2 ^ k = j / 2 * 2 ^ (k + 1) ↔ j % 2 = 0 := by
    rw [Nat.pow_succ', ← Nat.mul_assoc, Nat.mul_left_inj (by omega)]
    omega
  simp only [even, buddyOf]
  simp only [blockAddress, pageAddress, PG_SIZE]
  split
  · rw [Nat.add_mul]
    omega
  · obtain ⟨half, rfl⟩ : ∃ half, j = half + 1 := ⟨j - 1, by omega⟩
    rw [Nat.add_sub_cancel, Nat.add_mul half]
    omega

/-- The merged block starts at the lower of the two addresses. -/
theorem merged_address (m : MemoryInfo) (k j : Nat) :
    (if m.blockAddress k (buddyOf j) < m.blockAddress k j then m.blockAddress k (buddyOf j)
      else m.blockAddress k j) = m.blockAddress (k + 1) (j / 2) := by
  have below : m.blockAddress k (buddyOf j) < m.blockAddress k j ↔ buddyOf j < j := by
    have scaled : buddyOf j * 2 ^ k < j * 2 ^ k ↔ buddyOf j < j :=
      Nat.mul_lt_mul_right (Nat.two_pow_pos k)
    simp only [blockAddress, pageAddress, PG_SIZE]
    omega
  rw [lower_half_address]
  simp only [below]
  unfold buddyOf
  split <;> split <;> congr 1 <;> omega

theorem block_merged (k j : Nat) : block (k + 1) (j / 2) = block k j ∪ block k (buddyOf j) := by
  ext i
  simp only [mem_block, Set.mem_union, Nat.pow_succ, ← Nat.div_div_eq_div_mul, buddyOf]
  split <;> omega

/-- The descriptor of a free page. -/
def freeInfo : PageInfo := { type := PAGE_TYPE_USABLE ||| PAGE_TYPE_FREE, reference := 0 }

/-- What a release does to descriptors: those of its block, and maybe others, become those of free
pages, and the rest stay. -/
structure Frees (m : MemoryInfo) (freed : Set Nat) (m' : MemoryInfo) : Prop where
  others : ∀ id, m'.pagesInfo id = m.pagesInfo id ∨ m'.pagesInfo id = freeInfo
  block : ∀ i ∈ freed, m'.pagesInfo (m.pageId i) = freeInfo

theorem frees_block (m : MemoryInfo) (order j : Nat) :
    Frees m (block order j) (m.setPages (m.blockAddress order j) (2 ^ order) freeInfo) := by
  obtain ⟨infos, outside⟩ := set_block_infos m order j freeInfo
  refine ⟨fun id => ?_, infos⟩
  by_cases member : ∃ i ∈ block order j, id = m.pageId i
  · obtain ⟨i, member, rfl⟩ := member
    exact .inr (infos i member)
  · push Not at member
    exact .inl (outside.infos id member)

/-- What happens before, without a change of descriptors. -/
theorem Frees.after {m₁ : MemoryInfo} {scope freed : Set Nat} (frees : Frees m₁ freed m')
    (changed : ChangedWithin m m₁ scope) (kept : m₁.pagesInfo = m.pagesInfo) :
    Frees m freed m' := by
  obtain ⟨others, block⟩ := frees
  rw [kept] at others
  rw [changed.page_id] at block
  exact ⟨others, block⟩

/-- The branch that does not merge. -/
theorem list_block_spec (rep : Represents m pages free used) (bounded : order < MAX_BUDDY_ORDER)
    (inUse : block order j ⊆ used)
    (alone : order < MAX_BUDDY_ORDER - 1 → buddyOf j ∉ free order) :
    ∃ m', listBlock (xorBuddyMap m (m.blockAddress order j) order).2 (m.blockAddress order j)
        order = .ok m' ∧
      (∃ free', Represents m' pages free' (used \ block order j) ∧
        (Coalesced (MAX_BUDDY_ORDER - 1) free → Coalesced (MAX_BUDDY_ORDER - 1) free')) ∧
      ChangedWithin m m' (freePages pages (used \ block order j)) ∧
      Frees m (block order j) m' := by
  obtain ⟨m₁, attached, rep₁, changed, kept⟩ := rep.give bounded inUse
  simp only [listBlock, attached, bind_ok, set_count_set_pages]
  have within : block order j ⊆ freePages pages (used \ block order j) :=
    fun i member => ⟨rep.partition.usedInside i (inUse member), fun still => still.2 member⟩
  rw [set_pages_counts, ← changed.block_address]
  refine ⟨_, rfl, ⟨_, rep₁.set_pages _, fun coalesced =>
    coalesced.push (buddy_pair j) (buddy_ne j) alone⟩, changed.trans ?_,
    (frees_block _ order j).after changed kept⟩
  exact (set_block_infos _ order j _).2.mono within

variable (above : Nat) (total : order + above + 1 = MAX_BUDDY_ORDER)
  (rep : Represents m pages free used) (inUse : block order j ⊆ used)
include above total rep inUse

/-- `free_pages_of_power_2` on a block in use returns zero and puts its pages, and no
others, back on the free lists, without two buddies left free. Apart from these pages
it writes only to pages that were free before. The pages get the descriptor of a free page.

Proof: induction on the orders above. While the buddy is free it is taken, and the
merged block is in use; otherwise the block is put on its list. -/
theorem free_coalesces :
    ∃ m', freePagesOfPower2 above order (m.blockAddress order j) m = .ok (0, m') ∧
      (∃ free', Represents m' pages free' (used \ block order j) ∧
        (Coalesced (MAX_BUDDY_ORDER - 1) free → Coalesced (MAX_BUDDY_ORDER - 1) free')) ∧
      ChangedWithin m m' (freePages pages (used \ block order j)) ∧
      Frees m (block order j) m' := by
  induction above generalizing order j m free used with
  | zero =>
    obtain ⟨m₁, listed, result⟩ := list_block_spec rep (by omega) inUse (by omega)
    refine ⟨m₁, ?_, result⟩
    unfold freePagesOfPower2
    simp only [rep.layout.block_ne_zero, if_false, rep.block_bounds inUse, and_self,
      not_true_eq_false, listed, bind_ok, pure_eq_ok]
  | succ above ih =>
    unfold freePagesOfPower2
    simp only [rep.layout.block_ne_zero, if_false, rep.block_bounds inUse, and_self,
      not_true_eq_false]
    rw [xor_returns rep (by omega) inUse (buddy_pair j) (buddy_ne j)]
    by_cases merged : buddyOf j ∈ free order
    · obtain ⟨m₁, removed, rep₁, changed, kept⟩ := rep.takeBuddy (buddy_pair j) merged
      have mergedUse : block (order + 1) (j / 2) ⊆ used ∪ block order (buddyOf j) := by
        rw [block_merged]
        exact Set.union_subset (fun i member => .inl (inUse member)) Set.subset_union_right
      obtain ⟨m₂, returns, ⟨free₂, rep₂, keeps⟩, changed₂, frees⟩ := ih (by omega) rep₁ mergedUse
      have remaining : (used ∪ block order (buddyOf j)) \ block (order + 1) (j / 2) =
          used \ block order j := by
        have unused := rep.partition.free_unused merged
        ext i
        have outside : i ∈ used → i ∉ block order (buddyOf j) :=
          fun member => Set.disjoint_left.mp unused member
        rw [block_merged]
        simp only [Set.mem_sdiff, Set.mem_union]
        tauto
      rw [remaining] at rep₂ changed₂
      have within : freePages pages used ⊆ freePages pages (used \ block order j) :=
        fun i member => ⟨member.1, fun still => member.2 still.1⟩
      obtain ⟨others, freed⟩ := frees.after changed kept
      rw [block_merged] at freed
      refine ⟨m₂, ?_, ⟨free₂, rep₂, fun coalesced =>
        keeps (coalesced.erase rep.partition.unique order _)⟩, (changed.mono within).trans changed₂,
        others, fun i member => freed i (.inl member)⟩
      have index : pageIdx (xorBuddyMap m (m.blockAddress order j) order).2
          (m.blockAddress order j) = j * 2 ^ order := page_idx_block m order j
      have half : j * 2 ^ order / 2 ^ (order + 1) = j / 2 := by
        rw [← page_idx_block m order j, pair_of_block]
      rw [changed.block_address] at returns
      simp only [merged, decide_true, Bool.not_true, index, half, buddy_address, removed,
        bind_ok, merged_address, returns, pure_eq_ok]
    · obtain ⟨m₁, listed, result⟩ := list_block_spec rep (by omega) inUse fun _ => merged
      refine ⟨m₁, ?_, result⟩
      simp [merged, listed]

theorem free_spec :
    ∃ m', freePagesOfPower2 above order (m.blockAddress order j) m = .ok (0, m') ∧
      (∃ free', Represents m' pages free' (used \ block order j)) ∧
      ChangedWithin m m' (freePages pages (used \ block order j)) := by
  obtain ⟨m', returns, ⟨free', rep', -⟩, changed, -⟩ := free_coalesces above total rep inUse
  exact ⟨m', returns, ⟨free', rep'⟩, changed⟩

end Release

section EntryPoints

variable {n attr : Nat}

/-- `page_alloc` returns for every page count. -/
theorem page_alloc_spec (n attr : Nat) (rep : Represents m pages free used) :
    (pageAlloc m n attr = .ok (0, m) ∧ ∀ k, blockOrder n ≤ k → free k = []) ∨
    ∃ j m', pageAlloc m n attr = .ok (m.blockAddress (blockOrder n) j, m') ∧
      Allocates m pages used (blockOrder n) attr j m' ∧
      ∃ k, blockOrder n ≤ k ∧ free k ≠ [] := by
  by_cases small : blockOrder n ≤ MAX_BUDDY_ORDER
  · exact allocate_spec _ _ attr (by omega) rep
  · refine .inl ⟨?_, fun k above => rep.orders k (by omega)⟩
    have none : MAX_BUDDY_ORDER - blockOrder n = 0 := by omega
    simp only [pageAlloc, none]
    rfl

/-- `page_free` returns zero for every block in use. -/
theorem page_free_spec (rep : Represents m pages free used)
    (bounded : blockOrder n < MAX_BUDDY_ORDER) (inUse : block (blockOrder n) j ⊆ used) :
    ∃ m', pageFree m (m.blockAddress (blockOrder n) j) n = .ok (0, m') ∧
      (∃ free', Represents m' pages free' (used \ block (blockOrder n) j)) ∧
      ChangedWithin m m' (freePages pages (used \ block (blockOrder n) j)) :=
  free_spec _ (by omega) rep inUse

end EntryPoints

end Mftt
