import Mftt.BuddyRuns

/-!
# Complete coalescing

A release merges a block with its buddy as long as the buddy is free, and an allocation splits a
block without giving both halves back. So in a bank whose bit maps do not overlap the free blocks
are the largest blocks of free pages: they depend on the pages in use and on nothing else, and
when all pages are free again they are the blocks of the beginning.

In a bank of fewer than 2048 pages the maps of the last two orders share their words. A bit of
the last order, which has no meaning, is then taken for the bit of a pair, and a release can leave
two free halves of one block unmerged.
-/

namespace Mftt

open DyadicBlocks Function

/-- Block `j` of order `k` is free as a whole, and is not half of a larger block that is. -/
def LargestFree (pages : Nat) (used : Set Nat) (k j : Nat) : Prop :=
  k ≤ MAX_BUDDY_ORDER - 1 ∧ (∀ i ∈ block k j, i < pages ∧ i ∉ used) ∧
    (k < MAX_BUDDY_ORDER - 1 → ¬∀ i ∈ block (k + 1) (j / 2), i < pages ∧ i ∉ used)

/-- What is expected of a state of a run in which the pages in `used` are allocated: the free
lists hold no two buddies, they hold the largest free blocks, each once, and without a page in use
they hold the blocks of the beginning and as much memory. -/
structure CoalescesFully (boot : BootMemory) (m : MemoryInfo) (used : Set Nat) : Prop where
  blocks : ∃ free : Nat → List Nat, Threads m free ∧ Coalesced (MAX_BUDDY_ORDER - 1) free ∧
    ∀ k, (free k).Nodup ∧ ∀ j, j ∈ free k ↔ LargestFree boot.managedPages used k j
  allFree : used = ∅ → ∀ nodes words,
    memoryAvailable m = memoryAvailable (initMemory boot nodes words) ∧
      ∃ free : Nat → List Nat, Threads m free ∧
        (free (MAX_BUDDY_ORDER - 1)).Perm (List.range boot.blockCount) ∧
          ∀ k, k ≠ MAX_BUDDY_ORDER - 1 → free k = []

variable {m : MemoryInfo} {used : Set Nat}

variable {free : Nat → List Nat}

section Large

variable {boot : BootMemory}

/-- In every state of a run from a bank with enough pages no two buddies are free. -/
theorem reachable_coalesced (large : 2048 ≤ boot.pgCount ∨ boot.blockCount = 0)
    (reachable : BuddyReachable boot m used) :
    ∃ free, Represents m boot.managedPages free used ∧ Coalesced (MAX_BUDDY_ORDER - 1) free := by
  induction reachable with
  | init nodes words =>
    refine ⟨_, init_represents boot nodes words large, fun k below q both => ?_⟩
    rw [top_blocks_below _ (Nat.ne_of_lt below)] at both
    exact List.not_mem_nil both.1
  | @alloc m m' used n attr p _ call ih =>
    obtain ⟨free, rep, coalesced⟩ := ih
    by_cases small : blockOrder n ≤ MAX_BUDDY_ORDER
    · rcases allocate_coalesces _ _ attr (Nat.add_sub_cancel' small) rep with
        ⟨returns, -⟩ | ⟨j, m₁, returns, -, -, free₁, rep₁, keeps⟩
      · cases returns.symm.trans call
        rw [handed_out_null, Set.union_empty]
        exact ⟨free, rep, coalesced⟩
      · cases returns.symm.trans call
        rw [handed_out_block rep.layout.toRegion]
        exact ⟨free₁, rep₁, keeps coalesced⟩
    · rcases page_alloc_spec n attr rep with ⟨returns, -⟩ | ⟨j, m₁, -, -, k, above, some⟩
      · cases returns.symm.trans call
        rw [handed_out_null, Set.union_empty]
        exact ⟨free, rep, coalesced⟩
      · exact absurd (rep.orders k (by omega)) some
  | @free m m' used n j result _ bounded inUse call ih =>
    obtain ⟨free, rep, coalesced⟩ := ih
    obtain ⟨m₁, returns, ⟨free₁, rep₁, keeps⟩, -⟩ :=
      free_coalesces (MAX_BUDDY_ORDER - 1 - blockOrder n) (by omega) rep inUse
    cases returns.symm.trans call
    exact ⟨free₁, rep₁, keeps coalesced⟩
  | write _ writes ih =>
    obtain ⟨free, rep, coalesced⟩ := ih
    exact ⟨free, rep.owner_writes writes, coalesced⟩

theorem Represents.largest_free (rep : Represents m boot.managedPages free used)
    (coalesced : Coalesced (MAX_BUDDY_ORDER - 1) free) (k j : Nat) :
    j ∈ free k ↔ LargestFree boot.managedPages used k j :=
  coalesced.mem_iff rep.partition fun k above => rep.orders k (by omega)

/-- Without a page in use the largest free blocks are those of the last order. -/
theorem largest_of_all {k j : Nat} :
    LargestFree boot.managedPages ∅ k j ↔ k = MAX_BUDDY_ORDER - 1 ∧ j < boot.blockCount := by
  constructor
  · rintro ⟨bounded, inside, maximal⟩
    have last : k = MAX_BUDDY_ORDER - 1 := by
      by_contra below
      refine maximal (by omega) fun i member => ⟨?_, Set.notMem_empty i⟩
      -- The managed pages are whole blocks of the last order.
      have first := (inside _ (first_mem_block k j)).1
      have same : i / 2 ^ (MAX_BUDDY_ORDER - 1) = j * 2 ^ k / 2 ^ (MAX_BUDDY_ORDER - 1) := by
        refine block_coarser (show k + 1 ≤ MAX_BUDDY_ORDER - 1 by omega) ?_
        rw [first_mem_pair]
        exact member
      simp only [BootMemory.managedPages, MAX_BUDDY_ORDER] at first same ⊢
      omega
    subst last
    have first := (inside _ (first_mem_block _ j)).1
    refine ⟨rfl, ?_⟩
    exact Nat.lt_of_mul_lt_mul_right first
  · rintro ⟨rfl, below⟩
    refine ⟨le_rfl, fun i member => ⟨?_, Set.notMem_empty i⟩, fun less => absurd less (lt_irrefl _)⟩
    rw [mem_block_iff] at member
    exact member.2.trans_le (Nat.mul_le_mul_right _ below)

theorem memory_available_eq {m' : MemoryInfo} {free' : Nat → List Nat} (threads : Threads m free)
    (threads' : Threads m' free') (same : ∀ k, (free k).length = (free' k).length) :
    memoryAvailable m = memoryAvailable m' := by
  have counts : m.freeCount = m'.freeCount := by
    funext k
    rw [threads.counts, threads'.counts, same]
  rw [memoryAvailable, memoryAvailable, counts]

theorem Represents.coalesces_fully (rep : Represents m boot.managedPages free used)
    (coalesced : Coalesced (MAX_BUDDY_ORDER - 1) free) : CoalescesFully boot m used where
  blocks := ⟨free, rep.threads, coalesced, fun k =>
    ⟨rep.partition.unique k, rep.largest_free coalesced k⟩⟩
  allFree := by
    rintro rfl nodes words
    have whole : (free (MAX_BUDDY_ORDER - 1)).Perm (List.range boot.blockCount) := by
      refine (List.perm_ext_iff_of_nodup (rep.partition.unique _) List.nodup_range).mpr fun j => ?_
      rw [rep.largest_free coalesced, largest_of_all, List.mem_range]
      exact and_iff_right rfl
    have others : ∀ k, k ≠ MAX_BUDDY_ORDER - 1 → free k = [] := by
      intro k other
      refine List.eq_nil_iff_forall_not_mem.mpr fun j listed => ?_
      rw [rep.largest_free coalesced, largest_of_all] at listed
      exact other listed.1
    obtain ⟨threads, -⟩ := init_spec boot nodes words
    refine ⟨memory_available_eq rep.threads threads fun k => ?_, free, rep.threads, whole, others⟩
    by_cases last : k = MAX_BUDDY_ORDER - 1
    · subst last
      rw [whole.length_eq, topBlocks, update_self, List.length_reverse]
    · rw [others k last, top_blocks_below _ last]

end Large

section Small

/-- What remains of the invariant without the bits. -/
structure Threaded (m : MemoryInfo) (pages : Nat) (free : Nat → List Nat) (used : Set Nat) :
    Prop where
  region : Region m pages
  partition : Partition pages free used
  threads : Threads m free

variable {pages j : Nat}

/-- The lists of a memory show one set of blocks. -/
theorem Threads.unique {free' : Nat → List Nat} (threads : Threads m free)
    (threads' : Threads m free') : free = free' := by
  funext k
  have same := ListSegment.segment_unique (threads.lists k).1 (threads'.lists k).1
    (threads.lists k).2 (threads'.lists k).2
  exact (block_address_injective m k).list_map same

theorem Threaded.set_pages (linked : Threaded m pages free used) (p count : Nat) (info : PageInfo) :
    Threaded (m.setPages p count info) pages free used := by
  rw [set_pages_same]
  exact ⟨⟨linked.region.base, linked.region.starts, linked.region.room⟩, linked.partition,
    ⟨linked.threads.lists, linked.threads.counts⟩⟩

theorem Threaded.xor (linked : Threaded m pages free used) (p k : Nat) :
    Threaded (xorBuddyMap m p k).2 pages free used :=
  ⟨linked.region.changed (xor_changed m p k ∅), linked.partition, linked.threads.xor p k⟩

/-- The pages of a block have got a descriptor, and no other pages. -/
structure Described (m m' : MemoryInfo) (k j : Nat) (info : PageInfo) : Prop where
  numbers : m'.pageId = m.pageId
  inside : ∀ i ∈ block k j, m'.pagesInfo (m.pageId i) = info
  outside : ∀ i, i ∉ block k j → m'.pagesInfo (m.pageId i) = m.pagesInfo (m.pageId i)

theorem described_block {m₁ : MemoryInfo} {scope : Set Nat} {k : Nat} (info : PageInfo)
    (changed : ChangedWithin m m₁ scope) (region : Region m₁ pages)
    (kept : m₁.pagesInfo = m.pagesInfo) :
    Described m (m₁.setPages (m.blockAddress k j) (2 ^ k) info) k j info := by
  refine ⟨?_, ?_, fun i outside => ?_⟩
  · rw [set_pages_same]
    exact changed.page_id
  · rw [← changed.block_address, ← changed.page_id]
    exact (set_block_infos m₁ k j info).1
  · rw [described_outside changed region info outside, kept]

variable {rest : List Nat}

/-- An allocation from a list that is not empty takes its first block. -/
theorem Threaded.takeFirst (linked : Threaded m pages free used) {k : Nat}
    (first : free k = j :: rest) (above attr : Nat) :
    ∃ m', allocatePagesOfPower2 (above + 1) k attr m = .ok (m.blockAddress k j, m') ∧
      Threaded m' pages (update free k rest) (used ∪ block k j) ∧
      m'.words = xorBit m.words (m.buddyMap k) (j / 2) 1#32 ∧ m'.buddyMap = m.buddyMap ∧
      m'.usableMemoryStart = m.usableMemoryStart ∧
      Described m m' k j { type := attr % 2 ^ 16, reference := 1 } := by
  obtain ⟨region, partition, threads⟩ := linked
  have listed : j ∈ free k := by simp [first]
  have head : m.freeList k = m.blockAddress k j := by
    rw [ListSegment.segment_first (threads.lists k).1, first]
    rfl
  have count : m.freeCount k ≠ 0 := by
    rw [threads.counts, first]
    simp
  obtain ⟨m₁, removed, same, threads₁, changed⟩ := remove_threads region partition threads listed
  have counted := changed.trans (set_count_changed m₁ k (m₁.freeCount k - 1) _)
  rw [← head] at removed
  have returns := allocate_listed above attr count (head ▸ region.block_ne_zero) removed
  rw [head] at returns
  have erased : update free k ((free k).erase j) = update free k rest := by
    rw [first, List.erase_cons_head]
  have linked₁ : Threaded (m₁.setCount k (m₁.freeCount k - 1)) pages (update free k rest)
      (used ∪ block k j) :=
    ⟨region.changed counted, erased ▸ partition.take listed, erased ▸ threads₁⟩
  refine ⟨_, returns, (linked₁.xor _ k).set_pages _ _ _, ?_, ?_, ?_, ?_⟩
  · have kept : m₁.words = m.words := by rw [same]
    rw [set_pages_words, ← counted.block_address]
    simp only [xorBuddyMap, pair_of_block, counted.buddyMap]
    rw [← kept]
    rfl
  · rw [set_pages_maps]
    exact counted.buddyMap
  · rw [set_pages_same]
    exact counted.usableMemoryStart
  · exact described_block _ (counted.trans (xor_changed _ _ k _)) (linked₁.xor _ k).region
      same.infos

theorem order_half : blockOrder 128 = 7 := by
  exact Nat.clog_pow 2 7 (by decide)

theorem order_whole : blockOrder 256 = 8 := by
  exact Nat.clog_pow 2 8 (by decide)

/-- An allocation of half a largest block, with no smaller one free, splits the first one. -/
theorem Threaded.split (linked : Threaded m pages free used) (empty : free 7 = [])
    (first : free 8 = j :: rest) :
    ∃ m', pageAlloc m 128 0 = .ok (m.blockAddress 7 (2 * j + 1), m') ∧
      Threaded m' pages (update (update free 8 rest) 7 [2 * j])
        (used ∪ block 7 (2 * j + 1)) ∧
      m'.words = xorBit (xorBit m.words (m.buddyMap 8) (j / 2) 1#32) (m.buddyMap 7) j 1#32 ∧
      m'.buddyMap = m.buddyMap ∧ m'.usableMemoryStart = m.usableMemoryStart := by
  have fresh : Disjoint used (block 8 j) := linked.partition.free_unused (by simp [first])
  obtain ⟨m₁, returns, linked₁, words₁, maps₁, start₁, -⟩ := linked.takeFirst first 0 0
  have address : m₁.blockAddress = m.blockAddress := by
    funext k j
    simp only [MemoryInfo.blockAddress, MemoryInfo.pageAddress, start₁]
  have lower : block 7 (2 * j) ⊆ used ∪ block 8 j := by
    have halves : block 8 j = block 7 (2 * j) ∪ block 7 (2 * j + 1) := block_succ 7 j
    rw [halves]
    exact fun i member => .inr (.inl member)
  obtain ⟨m₂, attached, same, threads₂, changed⟩ :=
    attach_threads linked₁.region linked₁.partition linked₁.threads lower
  have counted := changed.trans (set_count_changed m₂ 7 (m₂.freeCount 7 + 1) _)
  have given := linked₁.partition.give lower
  rw [used_upper_half fresh, show update free 8 rest 7 = [] from empty] at given
  rw [show update free 8 rest 7 = [] from empty] at threads₂
  have linked₂ : Threaded (m₂.setCount 7 (m₂.freeCount 7 + 1)) pages
      (update (update free 8 rest) 7 [2 * j]) (used ∪ block 7 (2 * j + 1)) :=
    ⟨linked₁.region.changed counted, given, threads₂⟩
  rw [address] at attached
  have none : m.freeCount 7 = 0 := by rw [linked.threads.counts, empty, List.length_nil]
  have call := allocate_halved 1 0 none linked.region.block_ne_zero linked.region.block_ne_zero
    returns attached
  refine ⟨_, call, (linked₂.xor _ 7).set_pages _ _ _, ?_, ?_, ?_⟩
  · have kept : m₂.words = m₁.words := by rw [same]
    rw [← address, ← counted.block_address]
    simp only [xorBuddyMap, pair_of_block, counted.buddyMap, maps₁]
    rw [show (2 * j + 1) / 2 = j by omega, ← words₁, ← kept]
    rfl
  · rw [set_pages_maps]
    exact counted.buddyMap.trans maps₁
  · rw [set_pages_same]
    exact counted.usableMemoryStart.trans start₁

/-- A release that does not merge, since it is of the last order or the bit of its pair was
clear. -/
theorem Threaded.release (linked : Threaded m pages free used) {k : Nat} (above : Nat)
    (inUse : block k j ⊆ used)
    (alone : above = 0 ∨ checkBit m.words (m.buddyMap k) (j / 2) = false) :
    ∃ m', freePagesOfPower2 above k (m.blockAddress k j) m = .ok (0, m') ∧
      Threaded m' pages (update free k (j :: free k)) (used \ block k j) ∧
      m'.words = xorBit m.words (m.buddyMap k) (j / 2) 1#32 ∧ m'.buddyMap = m.buddyMap ∧
      m'.usableMemoryStart = m.usableMemoryStart ∧ Described m m' k j freeInfo := by
  have inside := (linked.partition.give inUse).inside k j (by simp)
  have bounds : m.usableMemoryStart ≤ m.blockAddress k j ∧
      m.blockAddress k j < m.usableMemoryEnd := by
    have fits := (linked.region.fits inside).2
    simp only [MemoryInfo.blockAddress, MemoryInfo.pageAddress] at fits ⊢
    omega
  have flipped := linked.xor (m.blockAddress k j) k
  have changedFlip := xor_changed m (m.blockAddress k j) k (freePages pages (used \ block k j))
  obtain ⟨m₁, attached, same, threads₁, changed⟩ :=
    attach_threads flipped.region flipped.partition flipped.threads inUse
  have counted := changedFlip.trans (changed.trans (set_count_changed m₁ k (m₁.freeCount k + 1) _))
  have linked₁ : Threaded (m₁.setCount k (m₁.freeCount k + 1)) pages
      (update free k (j :: free k)) (used \ block k j) :=
    ⟨linked.region.changed counted, linked.partition.give inUse, threads₁⟩
  have attached' : attachToFreeList (xorBuddyMap m (m.blockAddress k j) k).2
      (m.blockAddress k j) k = .ok m₁ := attached
  have lists : listBlock (xorBuddyMap m (m.blockAddress k j) k).2 (m.blockAddress k j) k =
      .ok ((m₁.setCount k (m₁.freeCount k + 1)).setPages (m.blockAddress k j) (2 ^ k)
        { type := PAGE_TYPE_USABLE ||| PAGE_TYPE_FREE, reference := 0 }) := by
    simp only [listBlock, attached', bind_ok, pure_eq_ok, set_count_set_pages, set_pages_counts]
  refine ⟨_, ?_, linked₁.set_pages (m.blockAddress k j) (2 ^ k)
    { type := PAGE_TYPE_USABLE ||| PAGE_TYPE_FREE, reference := 0 }, ?_, ?_, ?_,
    described_block freeInfo counted linked₁.region same.infos⟩
  · unfold freePagesOfPower2
    simp only [linked.region.block_ne_zero, if_false, bounds, and_self, not_true_eq_false]
    cases above with
    | zero => simp only [lists, bind_ok, pure_eq_ok]
    | succ above =>
      have set : (xorBuddyMap m (m.blockAddress k j) k).1 = true := by
        have clear := alone.resolve_left (by omega)
        simp only [xorBuddyMap, pair_of_block, check_bit_xor_bit, if_true, clear, Bool.not_false]
      simp only [set, lists, bind_ok, pure_eq_ok]
  · rw [set_pages_words]
    show m₁.words = _
    rw [same]
    simp only [xorBuddyMap, pair_of_block]
  · rw [set_pages_maps]
    exact counted.buddyMap
  · rw [set_pages_same]
    exact counted.usableMemoryStart

variable (boot : BootMemory)

theorem small_bank_maps (small : boot.pgCount < 2048) : boot.buddyMap 8 = boot.buddyMap 7 := by
  rw [boot.buddy_map_succ 7]
  omega

/-- Bit 0 of the shared map is flipped through a place other than bit 0 or through bit 0. -/
theorem first_bit_xor (words : Words) (base x : Nat) :
    checkBit (xorBit words base x 1#32) base 0 =
      if x = 0 then !checkBit words base 0 else checkBit words base 0 := by
  rw [check_bit_xor_bit]
  refine if_congr ?_ rfl rfl
  simp only [bitPlace, Prod.mk.injEq]
  omega

/-- A state of a small bank whose first `left` largest blocks are free and nothing else is. The
bit of the first pair of the last order tells that the second block, if there is one, was
taken. -/
structure Drained (left : Nat) (m : MemoryInfo) (used : Set Nat) : Prop where
  reachable : BuddyReachable boot m used
  linked : Threaded m boot.managedPages (topBlocks left) used
  within : left ≤ boot.blockCount
  taken : ∀ j, left ≤ j → j < boot.blockCount → block 8 j ⊆ used
  maps : m.buddyMap = boot.buddyMap
  bit : checkBit m.words (boot.buddyMap 7) 0 = decide (left ≤ 1 ∧ 2 ≤ boot.blockCount)

variable {boot}

theorem init_drained (some : boot.blockCount ≠ 0) :
    ∃ m used, Drained boot boot.blockCount m used := by
  obtain ⟨threads, partition, region, maps, -⟩ :=
    init_spec boot (fun _ => { prev := 0, next := 0 }) (fun _ => 0#32)
  refine ⟨_, ∅, .init (fun _ => { prev := 0, next := 0 }) (fun _ => 0#32),
    ⟨region, partition, threads⟩, le_rfl, fun j above below => by omega, maps, ?_⟩
  have managed : 0 * 2 ^ 8 < boot.managedPages := by
    simp only [BootMemory.managedPages, MAX_BUDDY_ORDER]
    omega
  rw [init_bit boot _ _ managed]
  symm
  rw [decide_eq_false_iff_not]
  omega

/-- A call for a largest block takes the first one. -/
theorem Threaded.takeWhole (linked : Threaded m boot.managedPages free used)
    (reachable : BuddyReachable boot m used) (first : free 8 = j :: rest) :
    ∃ m', BuddyReachable boot m' (used ∪ block 8 j) ∧
      Threaded m' boot.managedPages (update free 8 rest) (used ∪ block 8 j) ∧
      m'.words = xorBit m.words (m.buddyMap 8) (j / 2) 1#32 ∧ m'.buddyMap = m.buddyMap := by
  obtain ⟨m', returns, linked', words, maps, -⟩ := linked.takeFirst first 0 0
  have call : pageAlloc m 256 0 = .ok (m.blockAddress (blockOrder 256) j, m') := by
    exact returns
  have reached := BuddyReachable.alloc reachable call
  rw [handed_out_block linked.region] at reached
  exact ⟨m', reached, linked', words, maps⟩

/-- One more largest block is taken. -/
theorem Drained.next (small : boot.pgCount < 2048) {left : Nat}
    (drained : Drained boot (left + 2) m used) : ∃ m' used', Drained boot (left + 1) m' used' := by
  have first : topBlocks (left + 2) 8 = (left + 1) :: (List.range (left + 1)).reverse := by
    simp [topBlocks, List.range_succ]
  obtain ⟨m', reached, linked, words, maps⟩ := drained.linked.takeWhole drained.reachable first
  have rest : update (topBlocks (left + 2)) 8 (List.range (left + 1)).reverse =
      topBlocks (left + 1) := update_idem ..
  have within := drained.within
  refine ⟨m', _, reached, rest ▸ linked, by omega, fun j above below => ?_,
    maps.trans drained.maps, ?_⟩
  · rcases Nat.eq_or_lt_of_le above with rfl | later
    · exact Set.subset_union_right
    · exact (drained.taken j later below).trans Set.subset_union_left
  · rw [words, drained.maps, small_bank_maps boot small, first_bit_xor, drained.bit]
    by_cases last : left = 0
    · subst last
      simp [within]
    · exact decide_eq_decide.mpr (by omega)

theorem drained_to_first (small : boot.pgCount < 2048) (some : boot.blockCount ≠ 0) :
    ∃ m used, Drained boot 1 m used := by
  have down : ∀ left, (∃ m used, Drained boot (left + 1) m used) →
      ∃ m used, Drained boot 1 m used := by
    intro left
    induction left with
    | zero => exact id
    | succ left ih =>
      rintro ⟨m, used, drained⟩
      exact ih (drained.next small)
  obtain ⟨n, count⟩ := Nat.exists_eq_succ_of_ne_zero some
  have start := init_drained some
  rw [count] at start
  exact down n start

/-- In every small bank that has a block, a state is reached in which both halves of the first
block are free and unmerged. -/
theorem small_bank_unmerged (small : boot.pgCount < 2048) (some : boot.blockCount ≠ 0) :
    ∃ m used free, BuddyReachable boot m used ∧ Threaded m boot.managedPages free used ∧
      0 ∈ free 7 ∧ 1 ∈ free 7 := by
  obtain ⟨m, used, drained⟩ := drained_to_first small some
  have region := drained.linked.region
  obtain ⟨m₁, returns, linked, words, maps, -⟩ := drained.linked.split
    (top_blocks_below _ (by decide)) (show topBlocks 1 8 = [0] from rfl)
  rw [← order_half] at returns
  have reached := BuddyReachable.alloc drained.reachable returns
  rw [handed_out_block region] at reached
  have bit : checkBit m₁.words (boot.buddyMap 7) 0 = decide (2 ≤ boot.blockCount) := by
    rw [words, drained.maps, small_bank_maps boot small, first_bit_xor, first_bit_xor, if_pos rfl,
      if_pos rfl, Bool.not_not, drained.bit]
    exact decide_eq_decide.mpr (by omega)
  -- The release of the upper half once the bit of the pair is clear.
  have release : ∀ {m used free}, BuddyReachable boot m used →
      Threaded m boot.managedPages free used → m.buddyMap = boot.buddyMap → 0 ∈ free 7 →
      block 7 1 ⊆ used → checkBit m.words (boot.buddyMap 7) 0 = false →
      ∃ m used free, BuddyReachable boot m used ∧ Threaded m boot.managedPages free used ∧
        0 ∈ free 7 ∧ 1 ∈ free 7 := by
    intro m used free reached linked maps lower inUse clear
    obtain ⟨m', frees, linked', -⟩ := linked.release 1 inUse (.inr (maps ▸ clear))
    have call : pageFree m (m.blockAddress (blockOrder 128) 1) 128 = .ok (0, m') := by
      exact frees
    have last := BuddyReachable.free reached (by rw [order_half]; decide)
      (by rw [order_half]; exact inUse) call
    refine ⟨m', _, _, last, linked', ?_, ?_⟩
    · exact List.mem_cons_of_mem _ lower
    · exact List.mem_cons_self
  have lower : 0 ∈ update (update (topBlocks 1) 8 []) 7 [2 * 0] 7 := by
    exact List.mem_cons_self
  by_cases several : 2 ≤ boot.blockCount
  · have inUse : block 8 1 ⊆ used ∪ block 7 1 :=
      (drained.taken 1 le_rfl several).trans Set.subset_union_left
    obtain ⟨m₂, frees, linked₂, words₂, maps₂, -⟩ := linked.release 0 inUse (.inl rfl)
    have call : pageFree m₁ (m₁.blockAddress (blockOrder 256) 1) 256 = .ok (0, m₂) := by
      exact frees
    have reached₂ := BuddyReachable.free reached (by rw [order_whole]; decide)
      (by rw [order_whole]; exact inUse) call
    rw [order_whole] at reached₂
    refine release reached₂ linked₂ (maps₂.trans (maps.trans drained.maps)) ?_ ?_ ?_
    · exact lower
    · intro i member
      refine ⟨.inr member, fun other => ?_⟩
      rw [mem_block_iff] at member other
      omega
    · rw [words₂, maps, drained.maps, small_bank_maps boot small, first_bit_xor, bit]
      simp [several]
  · exact release reached linked (maps.trans drained.maps) lower Set.subset_union_right
      (by rw [bit]; simp [several])

end Small

/-- Coalescing is complete in every state of every run exactly when the bank has 2048 pages or
more, or no block at all. -/
theorem buddy_coalesces_iff (boot : BootMemory) :
    (∀ m used, BuddyReachable boot m used → CoalescesFully boot m used) ↔
      2048 ≤ boot.pgCount ∨ boot.blockCount = 0 := by
  constructor
  · intro coalesces
    by_contra neither
    rw [not_or, not_le] at neither
    obtain ⟨m, used, free, reachable, linked, lower, upper⟩ :=
      small_bank_unmerged neither.1 neither.2
    obtain ⟨free', threads', coalesced, -⟩ := (coalesces m used reachable).blocks
    obtain rfl := linked.threads.unique threads'
    exact coalesced 7 (by decide) 0 ⟨lower, upper⟩
  · intro large m used reachable
    obtain ⟨free, rep, coalesced⟩ := reachable_coalesced large reachable
    exact rep.coalesces_fully coalesced

theorem four_megabytes_small : fourMegabytes.pgCount < 2048 := by
  decide

theorem four_megabytes_some : fourMegabytes.blockCount ≠ 0 := by
  decide

/-- In the bank of 4 MiB both halves of a block become free without being merged. -/
theorem four_megabytes_unmerged :
    ∃ m used free, BuddyReachable fourMegabytes m used ∧ Threads m free ∧ 0 ∈ free 7 ∧
      1 ∈ free 7 ∧ ¬CoalescesFully fourMegabytes m used := by
  obtain ⟨m, used, free, reachable, linked, lower, upper⟩ :=
    small_bank_unmerged four_megabytes_small four_megabytes_some
  refine ⟨m, used, free, reachable, linked.threads, lower, upper, fun coalesces => ?_⟩
  obtain ⟨free', threads', coalesced, -⟩ := coalesces.blocks
  obtain rfl := linked.threads.unique threads'
  exact coalesced 7 (by decide) 0 ⟨lower, upper⟩

/-- The memory of the K210, with a kernel image of less than a megabyte. -/
def eightMegabytes : BootMemory where
  memoryStart := 0x80000000
  memoryEnd := 0x80800000
  kernBase := 0x80020000
  kernEnd := 0x80100000
  linked := fourMegabytes.linked
  image := by decide
  startsBelow := fourMegabytes.startsBelow
  endsAbove := by decide
  addressable := by decide

/-- A largest block of it is handed out and released. -/
theorem eight_megabytes_served : ∃ j m m',
    let m₀ := initMemory eightMegabytes (fun _ => ⟨0, 0⟩) fun _ => 0
    m₀.freeCount (blockOrder 256) ≠ 0 ∧
      pageAlloc m₀ 256 0 = .ok (m₀.blockAddress (blockOrder 256) j, m) ∧
      m.blockAddress = m₀.blockAddress ∧
      handedOut m₀ (m₀.blockAddress (blockOrder 256) j) 256 = block (blockOrder 256) j ∧
      pageFree m (m.blockAddress (blockOrder 256) j) 256 = .ok (0, m') := by
  have rep := init_represents eightMegabytes (fun _ => ⟨0, 0⟩) (fun _ => 0) (.inl (by decide))
  have some : topBlocks eightMegabytes.blockCount (blockOrder 256) ≠ [] := by decide
  rcases page_alloc_spec 256 0 rep with ⟨-, none⟩ | ⟨j, m, allocs, allocated, -⟩
  · exact absurd (none _ le_rfl) some
  · obtain ⟨free, taken⟩ := allocated.represents
    obtain ⟨m', frees, -⟩ := page_free_spec taken (by decide) Set.subset_union_right
    refine ⟨j, m, m', ?_, allocs, allocated.changed.block_address,
      handed_out_block rep.layout.toRegion, frees⟩
    rw [rep.threads.counts, List.length_eq_zero_iff.ne]
    exact some

end Mftt
