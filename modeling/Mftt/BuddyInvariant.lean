import Mftt.BuddyLists
import Mftt.DyadicBlocks

/-!
# The representation invariant of the buddy allocator

The abstract state of the allocator is a partition of the managed pages into
allocated pages and, for each order, a list of free blocks. Page numbers and block
numbers count from the first usable page. A memory represents such a partition
when each free list visits the blocks of its order, each counter is the length of
its list, and the bit of a pair of buddies below the last order tells whether
exactly one of the two is free.

The list routines, the counters and the bit maps are changed at different places
of the two entry points, so each part has its own law here; the entry points
combine them.
-/

namespace Mftt

open DyadicBlocks Function MemoryInfo

/-- Address of a page, by its number. -/
def MemoryInfo.pageAddress (m : MemoryInfo) (i : Nat) : Nat :=
  m.usableMemoryStart + i * PG_SIZE

/-- Address of block `j` of order `k`: that of its first page. -/
def MemoryInfo.blockAddress (m : MemoryInfo) (k j : Nat) : Nat := m.pageAddress (j * 2 ^ k)

/-- Index of the descriptor of a page, by its number. -/
def MemoryInfo.pageId (m : MemoryInfo) (i : Nat) : Nat := m.getIdByPage (m.pageAddress i)

/-- What the list routines rely on about the fixed part of the state: the managed
pages end strictly below the usable end. -/
structure Region (m : MemoryInfo) (pages : Nat) : Prop where
  base : 0 < m.usableMemoryStart
  starts : m.memoryStart ≤ m.usableMemoryStart
  room : pages ≠ 0 → m.pageAddress pages < m.usableMemoryEnd

/-- What the two entry points rely on besides: the bit of a pair of some order below
the last is no other pair's bit. -/
structure Layout (m : MemoryInfo) (pages : Nat) : Prop extends Region m pages where
  places : ∀ k < MAX_BUDDY_ORDER - 1, ∀ q, q * 2 ^ (k + 1) < pages →
    ∀ k' < MAX_BUDDY_ORDER, ∀ q', q' * 2 ^ (k' + 1) < pages →
      bitPlace (m.buddyMap k) q = bitPlace (m.buddyMap k') q' → k = k' ∧ q = q'

/-- The free lists and their counters show the blocks of `free`. -/
structure Threads (m : MemoryInfo) (free : Nat → List Nat) : Prop where
  lists : ∀ k, m.Lists k ((free k).map (m.blockAddress k))
  counts : ∀ k, m.freeCount k = (free k).length

/-- The bit of a pair is set exactly when one of its two blocks is free. -/
def PairBits (m : MemoryInfo) (pages : Nat) (free : Nat → List Nat) : Prop :=
  ∀ k < MAX_BUDDY_ORDER - 1, ∀ q, q * 2 ^ (k + 1) < pages →
    checkBit m.words (m.buddyMap k) q = (decide (2 * q ∈ free k) ^^ decide (2 * q + 1 ∈ free k))

/-- The invariant: `m` represents the partition of the first `pages` pages into the
blocks of `free` and the pages in `used`. -/
structure Represents (m : MemoryInfo) (pages : Nat) (free : Nat → List Nat)
    (used : Set Nat) : Prop where
  layout : Layout m pages
  partition : Partition pages free used
  orders : ∀ k, MAX_BUDDY_ORDER ≤ k → free k = []
  threads : Threads m free
  bits : PairBits m pages free

/-- `m'` differs from `m` in no part of its layout, and in the list nodes and the
descriptors of no page outside `scope`. -/
structure ChangedWithin (m m' : MemoryInfo) (scope : Set Nat) : Prop where
  memoryStart : m'.memoryStart = m.memoryStart
  usableMemoryStart : m'.usableMemoryStart = m.usableMemoryStart
  usableMemoryEnd : m'.usableMemoryEnd = m.usableMemoryEnd
  pageCount : m'.pageCount = m.pageCount
  buddyMap : m'.buddyMap = m.buddyMap
  nodes : ∀ x, (∀ i ∈ scope, x ≠ m.pageAddress i) → m'.nodes x = m.nodes x
  infos : ∀ id, (∀ i ∈ scope, id ≠ m.pageId i) → m'.pagesInfo id = m.pagesInfo id

/-- Managed pages that are not in use. -/
def freePages (pages : Nat) (used : Set Nat) : Set Nat := {i | i < pages ∧ i ∉ used}

variable {m : MemoryInfo}

variable {pages : Nat} {used : Set Nat}

section ChangedWithin

variable {m' m'' : MemoryInfo} {scope wider : Set Nat}

theorem ChangedWithin.page_address (changed : ChangedWithin m m' scope) :
    m'.pageAddress = m.pageAddress := by
  funext i
  simp only [pageAddress, changed.usableMemoryStart]

theorem ChangedWithin.block_address (changed : ChangedWithin m m' scope) :
    m'.blockAddress = m.blockAddress := by
  funext k j
  simp only [blockAddress, changed.page_address]

theorem ChangedWithin.page_id (changed : ChangedWithin m m' scope) : m'.pageId = m.pageId := by
  funext i
  simp only [pageId, getIdByPage, changed.page_address, changed.memoryStart]

theorem ChangedWithin.refl (m : MemoryInfo) (scope : Set Nat) : ChangedWithin m m scope :=
  ⟨rfl, rfl, rfl, rfl, rfl, fun _ _ => rfl, fun _ _ => rfl⟩

theorem ChangedWithin.mono (changed : ChangedWithin m m' scope) (included : scope ⊆ wider) :
    ChangedWithin m m' wider :=
  { changed with
    nodes := fun x outside => changed.nodes x (fun i member => outside i (included member))
    infos := fun id outside => changed.infos id (fun i member => outside i (included member)) }

theorem ChangedWithin.trans (first : ChangedWithin m m' scope)
    (second : ChangedWithin m' m'' scope) : ChangedWithin m m'' scope where
  memoryStart := second.memoryStart.trans first.memoryStart
  usableMemoryStart := second.usableMemoryStart.trans first.usableMemoryStart
  usableMemoryEnd := second.usableMemoryEnd.trans first.usableMemoryEnd
  pageCount := second.pageCount.trans first.pageCount
  buddyMap := second.buddyMap.trans first.buddyMap
  nodes x outside := (second.nodes x (first.page_address ▸ outside)).trans (first.nodes x outside)
  infos id outside := (second.infos id (first.page_id ▸ outside)).trans (first.infos id outside)

/-- The conditions on the region and the layout only read the fixed part of the
state. -/
theorem Region.changed (region : Region m pages) (changed : ChangedWithin m m' scope) :
    Region m' pages where
  base := changed.usableMemoryStart ▸ region.base
  starts := by
    rw [changed.memoryStart, changed.usableMemoryStart]
    exact region.starts
  room := by
    rw [changed.page_address, changed.usableMemoryEnd]
    exact region.room

theorem Layout.changed (layout : Layout m pages) (changed : ChangedWithin m m' scope) :
    Layout m' pages where
  toRegion := layout.toRegion.changed changed
  places := by
    rw [changed.buddyMap]
    exact layout.places

/-- Different pages have different descriptors. -/
theorem page_id_inj {i i' : Nat} (region : Region m pages) : m.pageId i = m.pageId i' ↔ i = i' := by
  have starts := region.starts
  simp only [pageId, getIdByPage, pageAddress, PG_SIZE]
  omega

/-- A change confined to some pages keeps the descriptors of all others. -/
theorem ChangedWithin.info (changed : ChangedWithin m m' scope) {i : Nat} (region : Region m pages)
    (outside : i ∉ scope) : m'.pagesInfo (m.pageId i) = m.pagesInfo (m.pageId i) := by
  refine changed.infos _ (fun i' member same => ?_)
  rw [page_id_inj region] at same
  exact outside (same ▸ member)

end ChangedWithin

variable {k j : Nat} {free : Nat → List Nat}

section Threads

theorem page_address_inj {i i' : Nat} : m.pageAddress i = m.pageAddress i' ↔ i = i' := by
  simp only [pageAddress, PG_SIZE]
  omega

/-- Equal block addresses are equal first pages. -/
theorem block_address_inj {k' j' : Nat} :
    m.blockAddress k j = m.blockAddress k' j' ↔ j * 2 ^ k = j' * 2 ^ k' :=
  page_address_inj

/-- A block that ends inside the managed pages passes the check of the list
routines. -/
theorem Region.fits (region : Region m pages) (inside : (j + 1) * 2 ^ k ≤ pages) :
    BlockFits m (m.blockAddress k j) k := by
  have grows : 0 < (j + 1) * 2 ^ k := Nat.mul_pos (Nat.succ_pos j) (Nat.two_pow_pos k)
  have room := region.room (by omega)
  have last : m.blockAddress k j + PG_SIZE * 2 ^ k = m.pageAddress ((j + 1) * 2 ^ k) := by
    simp only [blockAddress, pageAddress, Nat.add_mul, PG_SIZE]
    omega
  rw [BlockFits, last]
  simp only [pageAddress, PG_SIZE] at room ⊢
  omega

theorem Region.block_ne_zero (region : Region m pages) : m.blockAddress k j ≠ 0 := by
  have := region.base
  simp only [blockAddress, pageAddress]
  omega

theorem block_address_injective (m : MemoryInfo) (k : Nat) :
    Injective (m.blockAddress k) := by
  intro j j' same
  exact Nat.eq_of_mul_eq_mul_right (Nat.two_pow_pos k) (block_address_inj.mp same)

/-- Disjoint blocks have different addresses, so the free lists of a partition share
no address. -/
theorem Threads.all_lists (threads : Threads m free) (partition : Partition pages free used) :
    m.AllLists (fun k => (free k).map (m.blockAddress k)) where
  lists := threads.lists
  unique k := (partition.unique k).map (block_address_injective m k)
  apart k k' x left right := by
    obtain ⟨j, listed, rfl⟩ := List.mem_map.mp left
    obtain ⟨j', listed', same⟩ := List.mem_map.mp right
    have first := block_address_inj.mp same
    refine partition.apart (j * 2 ^ k) k k' ?_ ?_
    · rwa [Nat.mul_div_cancel j (Nat.two_pow_pos k)]
    · rwa [← first, Nat.mul_div_cancel j' (Nat.two_pow_pos k')]

theorem listed_free (partition : Partition pages free used) {x : Nat}
    (outside : ∀ i ∈ freePages pages used, x ≠ m.pageAddress i) :
    ∀ k, x ∉ (free k).map (m.blockAddress k) := by
  intro k member
  obtain ⟨j, listed, rfl⟩ := List.mem_map.mp member
  have first := first_mem_block k j
  exact outside _ ⟨partition.free_inside listed _ first,
    fun inUse => Set.disjoint_left.mp (partition.free_unused listed) inUse first⟩ rfl

/-- Stores to links and list heads only, confined to some pages. -/
theorem changed_of_links {m' : MemoryInfo} {scope : Set Nat} (same : m.SameButLinks m')
    (kept : ∀ x, (∀ i ∈ scope, x ≠ m.pageAddress i) →
      m'.nextOf x = m.nextOf x ∧ m'.prevOf x = m.prevOf x) : ChangedWithin m m' scope := by
  refine ⟨?_, ?_, ?_, ?_, ?_, ?_, ?_⟩
  rotate_left 5
  · intro x outside
    obtain ⟨nexts, prevs⟩ := kept x outside
    exact congrArg₂ BlockList.mk prevs nexts
  · intro id outside
    rw [same]
  all_goals rw [same]

/-- Removing a listed block and counting it off. -/
theorem remove_threads (region : Region m pages) (partition : Partition pages free used)
    (threads : Threads m free) (listed : j ∈ free k) :
    ∃ m', removeFromFreeList m (m.blockAddress k j) k = .ok m' ∧ m.SameButLinks m' ∧
      Threads (m'.setCount k (m'.freeCount k - 1)) (update free k ((free k).erase j)) ∧
      ChangedWithin m m' (freePages pages used) := by
  have all := threads.all_lists partition
  obtain ⟨m', returns, same, lists, kept⟩ := remove_lists all
    (List.mem_map_of_mem listed) (region.fits (partition.inside k j listed))
  have changed := changed_of_links same (fun x outside => kept x (listed_free partition outside))
  refine ⟨m', returns, same, ⟨?_, ?_⟩, changed⟩
  · intro k'
    change m'.Lists k' (List.map (m'.blockAddress k') _)
    have there := lists k'
    rw [changed.block_address]
    by_cases other : k' = k
    · subst other
      rw [update_self] at there ⊢
      rwa [List.map_erase (block_address_injective m k')]
    · rw [update_of_ne other] at there ⊢
      exact there
  · intro k'
    have count : m'.freeCount = m.freeCount := by rw [same]
    by_cases other : k' = k
    · subst other
      simp [setCount, count, threads.counts, List.length_erase_of_mem listed]
    · simp [setCount, count, threads.counts, other]

/-- Attaching a block that is in use and counting it. -/
theorem attach_threads (region : Region m pages) (partition : Partition pages free used)
    (threads : Threads m free) (inUse : block k j ⊆ used) :
    ∃ m', attachToFreeList m (m.blockAddress k j) k = .ok m' ∧ m.SameButLinks m' ∧
      Threads (m'.setCount k (m'.freeCount k + 1)) (update free k (j :: free k)) ∧
      ChangedWithin m m' (freePages pages (used \ block k j)) := by
  have all := threads.all_lists partition
  have inside := (partition.give inUse).inside k j (by simp)
  have unlisted : ∀ k', m.blockAddress k j ∉ (free k').map (m.blockAddress k') := by
    intro k' member
    obtain ⟨j', listed, address⟩ := List.mem_map.mp member
    have first := block_address_inj.mp address
    have start : j' * 2 ^ k' ∈ used := by
      rw [first]
      exact inUse (first_mem_block k j)
    exact Set.disjoint_left.mp (partition.free_unused listed) start (first_mem_block k' j')
  obtain ⟨m', returns, same, lists, kept⟩ :=
    attach_lists all region.block_ne_zero unlisted (region.fits inside)
  have changed : ChangedWithin m m' (freePages pages (used \ block k j)) := by
    refine changed_of_links same (fun x outside => kept x ?_ (listed_free partition ?_))
    · refine outside (j * 2 ^ k) ⟨partition.usedInside _ (inUse (first_mem_block k j)), ?_⟩
      exact fun member => member.2 (first_mem_block k j)
    · intro i member
      exact outside i ⟨member.1, fun still => member.2 still.1⟩
  refine ⟨m', returns, same, ⟨?_, ?_⟩, changed⟩
  · intro k'
    change m'.Lists k' (List.map (m'.blockAddress k') _)
    have there := lists k'
    rw [changed.block_address]
    by_cases other : k' = k
    · subst other
      rw [update_self] at there ⊢
      exact there
    · rw [update_of_ne other] at there ⊢
      exact there
  · intro k'
    have count : m'.freeCount = m.freeCount := by rw [same]
    by_cases other : k' = k
    · subst other
      simp [setCount, count, threads.counts]
    · simp [setCount, count, threads.counts, other]

end Threads

section Bits

variable {free' : Nat → List Nat}

theorem page_idx_block (m : MemoryInfo) (k j : Nat) :
    pageIdx m (m.blockAddress k j) = j * 2 ^ k := by
  simp only [pageIdx, blockAddress, pageAddress, PG_SIZE]
  omega

theorem pair_of_block (m : MemoryInfo) (k j : Nat) :
    pageIdx m (m.blockAddress k j) / 2 ^ (k + 1) = j / 2 := by
  rw [page_idx_block, Nat.pow_succ, ← Nat.div_div_eq_div_mul,
    Nat.mul_div_cancel j (Nat.two_pow_pos k)]

theorem pair_inside (inside : (j + 1) * 2 ^ k ≤ pages) : j / 2 * 2 ^ (k + 1) < pages := by
  have lower : j / 2 * 2 * 2 ^ k ≤ j * 2 ^ k :=
    Nat.mul_le_mul_right _ (Nat.div_mul_le_self j 2)
  have positive := Nat.two_pow_pos k
  rw [Nat.pow_succ', ← Nat.mul_assoc]
  rw [Nat.add_mul] at inside
  omega

/-- Flipping the bit of a block's pair is right when the block changes between free
and not free and no other block does. -/
theorem xor_pair_bits (layout : Layout m pages) (bits : PairBits m pages free)
    (bounded : k < MAX_BUDDY_ORDER) (inside : (j + 1) * 2 ^ k ≤ pages)
    (toggled : ∀ k' x, x ∈ free' k' ↔ (x ∈ free k' ↔ ¬(k' = k ∧ x = j))) :
    PairBits (xorBuddyMap m (m.blockAddress k j) k).2 pages free' := by
  intro k' below q within
  have old := bits k' below q within
  have pairInside := pair_inside inside
  simp only [xorBuddyMap, pair_of_block, check_bit_xor_bit]
  by_cases same : k' = k ∧ q = j / 2
  · obtain ⟨rfl, rfl⟩ := same
    rw [old]
    rcases Nat.mod_two_eq_zero_or_one j with even | odd
    · have left : 2 * (j / 2) = j := by omega
      by_cases listed : j ∈ free k' <;> simp [toggled, left]
    · have left : 2 * (j / 2) ≠ j := by omega
      have right : 2 * (j / 2) + 1 = j := by omega
      by_cases listed : j ∈ free k' <;> simp [toggled, left, right]
  · rw [if_neg, old]
    · have kept : ∀ x, x / 2 = q → (x ∈ free' k' ↔ x ∈ free k') := by
        rintro x rfl
        have other : ¬(k' = k ∧ x = j) := fun both => same ⟨both.1, by rw [both.2]⟩
        rw [toggled, iff_true_right other]
      rw [decide_eq_decide.mpr (kept (2 * q) (by omega)),
        decide_eq_decide.mpr (kept (2 * q + 1) (by omega))]
    · intro place
      exact same (layout.places k' below q within k bounded _ pairInside place)

end Bits

section Descriptors

variable {info : PageInfo}

/-- Writing descriptors changes nothing else. -/
theorem set_pages_same (m : MemoryInfo) (p count : Nat) (info : PageInfo) :
    m.setPages p count info = { m with pagesInfo := (m.setPages p count info).pagesInfo } := by
  induction count with
  | zero => rfl
  | succ i ih =>
    simp only [setPages]
    rw [ih]

@[simp] theorem set_pages_words (p count : Nat) : (m.setPages p count info).words = m.words := by
  rw [set_pages_same]

@[simp] theorem set_pages_maps (p count : Nat) :
    (m.setPages p count info).buddyMap = m.buddyMap := by
  rw [set_pages_same]

@[simp] theorem set_pages_counts (p count : Nat) :
    (m.setPages p count info).freeCount = m.freeCount := by
  rw [set_pages_same]

theorem set_pages_infos (m : MemoryInfo) (p count : Nat) (info : PageInfo) (id : Nat) :
    ((∃ i < count, id = m.getIdByPage (p + i * PG_SIZE)) →
      (m.setPages p count info).pagesInfo id = info) ∧
    ((∀ i < count, id ≠ m.getIdByPage (p + i * PG_SIZE)) →
      (m.setPages p count info).pagesInfo id = m.pagesInfo id) := by
  induction count with
  | zero => simp [setPages]
  | succ n ih =>
    have same : (m.setPages p n info).getIdByPage = m.getIdByPage := by
      rw [set_pages_same]
      rfl
    simp only [setPages, same]
    by_cases last : id = m.getIdByPage (p + n * PG_SIZE)
    · subst last
      refine ⟨fun _ => update_self .., fun absent => ?_⟩
      exact absurd rfl (absent n n.lt_succ_self)
    · rw [update_of_ne last]
      refine ⟨?_, fun absent => ih.2 (fun i below => absent i (below.trans n.lt_succ_self))⟩
      rintro ⟨i, below, rfl⟩
      refine ih.1 ⟨i, ?_, rfl⟩
      rcases Nat.lt_succ_iff_lt_or_eq.mp below with less | rfl
      · exact less
      · exact absurd rfl last

theorem set_block_infos (m : MemoryInfo) (k j : Nat) (info : PageInfo) :
    (∀ i ∈ block k j,
      (m.setPages (m.blockAddress k j) (2 ^ k) info).pagesInfo (m.pageId i) = info) ∧
    ChangedWithin m (m.setPages (m.blockAddress k j) (2 ^ k) info) (block k j) := by
  have shifted : ∀ i, m.blockAddress k j + i * PG_SIZE = m.pageAddress (j * 2 ^ k + i) := by
    simp only [blockAddress, pageAddress, PG_SIZE]
    omega
  constructor
  · intro i member
    rw [mem_block_iff, Nat.add_mul] at member
    refine (set_pages_infos m _ _ info _).1 ⟨i - j * 2 ^ k, by omega, ?_⟩
    rw [shifted, Nat.add_sub_cancel' member.1, pageId]
  · refine ⟨?_, ?_, ?_, ?_, ?_, ?_, ?_⟩
    rotate_left 6
    · intro id outside
      refine (set_pages_infos m _ _ info id).2 (fun i below => ?_)
      rw [shifted]
      refine outside (j * 2 ^ k + i) ?_
      rw [mem_block_iff, Nat.add_mul]
      omega
    all_goals rw [set_pages_same]
    simp

/-- The invariant does not read the descriptors. -/
theorem Represents.set_pages (rep : Represents m pages free used) (info : PageInfo) :
    Represents (m.setPages (m.blockAddress k j) (2 ^ k) info) pages free used := by
  have changed := (set_block_infos m k j info).2
  refine ⟨rep.layout.changed changed, rep.partition, rep.orders, ?_, ?_⟩
  · rw [set_pages_same]
    exact ⟨rep.threads.lists, rep.threads.counts⟩
  · rw [set_pages_same]
    exact rep.bits

end Descriptors

end Mftt
