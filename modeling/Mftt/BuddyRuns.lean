import Mftt.BuddyBoot

/-!
# Runs of the buddy allocator

A run starts from the state `init_memory` builds. Its steps are calls of `page_alloc`
with any page count and attribute, calls of `page_free` for an aligned power-of-two
range of allocated pages, and whatever the owners of allocated pages store in these
pages and in their descriptors between two calls. The set of allocated pages is
carried along: it is what the calls so far have handed out and not taken back.
-/

namespace Mftt

open DyadicBlocks

/-- Pages of the block that `page_alloc` returned for a request of `n` pages; none
when it returned NULL. -/
def handedOut (m : MemoryInfo) (p n : Nat) : Set Nat :=
  {i | p ≠ 0 ∧ p ≤ m.pageAddress i ∧ m.pageAddress i < p + 2 ^ blockOrder n * PG_SIZE}

/-- Between two calls the owners of allocated pages write to these pages and their
descriptors, and nothing else changes. -/
structure OwnerWrites (m m' : MemoryInfo) (used : Set Nat) : Prop where
  changed : ChangedWithin m m' used
  freeList : m'.freeList = m.freeList
  freeCount : m'.freeCount = m.freeCount
  words : m'.words = m.words

/-- States of the allocator reached from boot, with the pages allocated in them. A
range given back has the size of a block the allocator can hand out. -/
inductive BuddyReachable (boot : BootMemory) : MemoryInfo → Set Nat → Prop where
  | init (nodes : Nat → BlockList) (words : Words) :
      BuddyReachable boot (initMemory boot nodes words) ∅
  | alloc {m m' : MemoryInfo} {used : Set Nat} {n attr p : Nat} :
      BuddyReachable boot m used → pageAlloc m n attr = .ok (p, m') →
      BuddyReachable boot m' (used ∪ handedOut m p n)
  | free {m m' : MemoryInfo} {used : Set Nat} {n j result : Nat} :
      BuddyReachable boot m used → blockOrder n < MAX_BUDDY_ORDER →
      block (blockOrder n) j ⊆ used →
      pageFree m (m.blockAddress (blockOrder n) j) n = .ok (result, m') →
      BuddyReachable boot m' (used \ block (blockOrder n) j)
  | write {m m' : MemoryInfo} {used : Set Nat} :
      BuddyReachable boot m used → OwnerWrites m m' used → BuddyReachable boot m' used

variable {m : MemoryInfo} {free : Nat → List Nat}

section Runs

variable {boot : BootMemory} {m' : MemoryInfo} {pages n attr j : Nat} {used scope : Set Nat}

theorem handed_out_block (region : Region m pages) :
    handedOut m (m.blockAddress (blockOrder n) j) n = block (blockOrder n) j := by
  ext i
  rw [mem_block_iff, Nat.add_mul]
  have valid := region.block_ne_zero (k := blockOrder n) (j := j)
  simp only [handedOut, Set.mem_ofPred_eq, ne_eq, valid, not_false_eq_true, true_and]
  simp only [MemoryInfo.blockAddress, MemoryInfo.pageAddress, PG_SIZE]
  omega

theorem handed_out_null (m : MemoryInfo) (n : Nat) : handedOut m 0 n = ∅ := by
  simp [handedOut]

/-- Stores to allocated pages keep the lists: no list node lies in such a page. -/
theorem Threads.owner_writes (threads : Threads m free) (partition : Partition pages free used)
    (writes : OwnerWrites m m' used) : Threads m' free := by
  constructor
  · intro k
    obtain ⟨segment, positive⟩ := threads.lists k
    rw [writes.changed.block_address, MemoryInfo.Lists, writes.freeList]
    have kept : ∀ x ∈ (free k).map (m.blockAddress k), m'.nodes x = m.nodes x := by
      intro x member
      obtain ⟨j, listed, rfl⟩ := List.mem_map.mp member
      refine writes.changed.nodes _ (fun i inUse same => ?_)
      have first : j * 2 ^ k = i := page_address_inj.mp same
      exact Set.disjoint_left.mp (partition.free_unused listed) (first ▸ inUse)
        (first_mem_block k j)
    refine ⟨ListSegment.segment_congr segment ?_ ?_, positive⟩
    · exact fun x member => congrArg BlockList.prev (kept x member)
    · exact fun x member => congrArg BlockList.next (kept x member)
  · rw [writes.freeCount]
    exact threads.counts

theorem Represents.owner_writes (rep : Represents m pages free used)
    (writes : OwnerWrites m m' used) : Represents m' pages free used := by
  refine ⟨rep.layout.changed writes.changed, rep.partition, rep.orders,
    rep.threads.owner_writes rep.partition writes, ?_⟩
  intro k below q within
  rw [writes.words, writes.changed.buddyMap]
  exact rep.bits k below q within

/-- In every state of a run from a bank with enough pages the invariant holds. -/
theorem reachable_represents (large : 2048 ≤ boot.pgCount ∨ boot.blockCount = 0)
    (reachable : BuddyReachable boot m used) :
    ∃ free, Represents m boot.managedPages free used := by
  induction reachable with
  | init nodes words => exact ⟨_, init_represents boot nodes words large⟩
  | @alloc m m' used n attr p _ call ih =>
    obtain ⟨free, rep⟩ := ih
    rcases page_alloc_spec n attr rep with ⟨returns, -⟩ | ⟨j, m₁, returns, allocated, -⟩
    · rw [returns] at call
      cases call
      rw [handed_out_null, Set.union_empty]
      exact ⟨free, rep⟩
    · rw [returns] at call
      cases call
      rw [handed_out_block rep.layout.toRegion]
      exact allocated.represents
  | free _ bounded inUse call ih =>
    obtain ⟨free, rep⟩ := ih
    obtain ⟨m₁, returns, rep₁, -⟩ := page_free_spec rep bounded inUse
    rw [returns] at call
    cases call
    exact rep₁
  | write _ writes ih =>
    obtain ⟨free, rep⟩ := ih
    exact ⟨free, rep.owner_writes writes⟩

/-- No step moves the ends of the usable memory. -/
theorem reachable_bounds (large : 2048 ≤ boot.pgCount ∨ boot.blockCount = 0)
    (reachable : BuddyReachable boot m used) :
    m.usableMemoryStart = boot.usableMemoryStart ∧ m.usableMemoryEnd = boot.usableMemoryEnd := by
  induction reachable with
  | init nodes words =>
    obtain ⟨-, -, -, -, -, start, ends⟩ := init_spec boot nodes words
    exact ⟨start, ends⟩
  | @alloc m m' used n attr p before call ih =>
    obtain ⟨free, rep⟩ := reachable_represents large before
    rcases page_alloc_spec n attr rep with ⟨returns, -⟩ | ⟨j, m₁, returns, allocated, -⟩
    · cases returns.symm.trans call
      exact ih
    · cases returns.symm.trans call
      exact ⟨allocated.changed.usableMemoryStart.trans ih.1,
        allocated.changed.usableMemoryEnd.trans ih.2⟩
  | free before bounded inUse call ih =>
    obtain ⟨free, rep⟩ := reachable_represents large before
    obtain ⟨m₁, returns, -, changed⟩ := page_free_spec rep bounded inUse
    cases returns.symm.trans call
    exact ⟨changed.usableMemoryStart.trans ih.1, changed.usableMemoryEnd.trans ih.2⟩
  | write _ writes ih =>
    exact ⟨writes.changed.usableMemoryStart.trans ih.1, writes.changed.usableMemoryEnd.trans ih.2⟩

end Runs

/-- What is expected of a state of a run in which the pages in `used` are allocated.
The free lists and counters show some blocks of the managed pages; these blocks and
the allocated pages partition the managed pages; the bits of the pairs below the last
order tell which pairs have exactly one free block. Every allocation returns, hands
out no allocated page and keeps the descriptors of the allocated ones; every release
of a range of allocated pages returns and keeps the descriptors of the others. -/
structure BuddySound (boot : BootMemory) (m : MemoryInfo) (used : Set Nat) : Prop where
  blocks : ∃ free : Nat → List Nat, (∀ k, MAX_BUDDY_ORDER ≤ k → free k = []) ∧
    Threads m free ∧ Partition boot.managedPages free used ∧ PairBits m boot.managedPages free
  alloc : ∀ n attr, ∃ p m', pageAlloc m n attr = .ok (p, m') ∧ Disjoint used (handedOut m p n) ∧
    ∀ i ∈ used, m'.pagesInfo (m.pageId i) = m.pagesInfo (m.pageId i)
  free : ∀ n j, blockOrder n < MAX_BUDDY_ORDER → block (blockOrder n) j ⊆ used →
    ∃ m', pageFree m (m.blockAddress (blockOrder n) j) n = .ok (0, m') ∧
      ∀ i ∈ used \ block (blockOrder n) j, m'.pagesInfo (m.pageId i) = m.pagesInfo (m.pageId i)

theorem Represents.sound {boot : BootMemory} {used : Set Nat}
    (rep : Represents m boot.managedPages free used) : BuddySound boot m used where
  blocks := ⟨free, rep.orders, rep.threads, rep.partition, rep.bits⟩
  alloc n attr := by
    rcases page_alloc_spec n attr rep with ⟨returns, -⟩ | ⟨j, m', returns, allocated, -⟩
    · exact ⟨0, m, returns, by simp [handed_out_null], fun _ _ => rfl⟩
    · refine ⟨_, m', returns, ?_, fun i inUse => ?_⟩
      · rw [handed_out_block rep.layout.toRegion]
        exact allocated.fresh
      · exact allocated.changed.info rep.layout.toRegion (fun free => free.2 inUse)
  free n j bounded inUse := by
    obtain ⟨m', returns, -, changed⟩ := page_free_spec rep bounded inUse
    exact ⟨m', returns, fun i kept =>
      changed.info rep.layout.toRegion (fun free => free.2 kept)⟩

section SmallBanks

variable (boot : BootMemory) (nodes : Nat → BlockList) (words : Words)

/-- In a bank of fewer than 2048 pages the first bit map word of the last order is
also that of the order below. -/
theorem small_bank_place (small : boot.pgCount < 2048) :
    bitPlace (boot.buddyMap 7) ((boot.blockCount - 1) / 2) =
      bitPlace (boot.buddyMap 8) ((boot.blockCount - 1) / 2) := by
  rw [boot.buddy_map_succ 7]
  simp only [bitPlace, Prod.mk.injEq, and_true]
  omega

/-- The first allocation of a largest block flips one bit of the last order. -/
theorem first_top_alloc {pages last : Nat} (region : Region m pages)
    (threads : Threads m (topBlocks (last + 1)))
    (partition : Partition pages (topBlocks (last + 1)) ∅) :
    ∃ p m', pageAlloc m 256 0 = .ok (p, m') ∧ m'.buddyMap = m.buddyMap ∧ m'.freeCount 7 = 0 ∧
      m'.words = xorBit m.words (m.buddyMap 8) (last / 2) 1#32 := by
  have list : topBlocks (last + 1) 8 = last :: (List.range last).reverse := by
    simp [topBlocks, List.range_succ]
  have listed : last ∈ topBlocks (last + 1) 8 := by simp [list]
  have head : m.freeList 8 = m.blockAddress 8 last := by
    rw [ListSegment.segment_first (threads.lists 8).1, list]
    rfl
  have count : m.freeCount 8 ≠ 0 := by
    rw [threads.counts, list]
    simp
  obtain ⟨m₁, removed, same, -, changed⟩ := remove_threads region partition threads listed
  have counted := changed.trans (set_count_changed m₁ 8 (m₁.freeCount 8 - 1) _)
  rw [← head] at removed
  have returns := allocate_listed 0 0 count (head ▸ region.block_ne_zero) removed
  refine ⟨_, _, returns, ?_, ?_, ?_⟩
  · rw [set_pages_maps]
    exact counted.buddyMap
  · have empty : m₁.freeCount 7 = 0 := by
      rw [same]
      simp [threads.counts, topBlocks]
    rw [set_pages_counts]
    exact empty
  · have kept : m₁.words = m.words := by rw [same]
    rw [set_pages_words, head, ← counted.block_address, ← kept]
    simp only [xorBuddyMap, pair_of_block, counted.buddyMap]
    rfl

/-- In a small bank this bit is that of a pair of the order below, where no block is
free. -/
theorem small_bank_alloc (small : boot.pgCount < 2048) (some : boot.blockCount ≠ 0) :
    ∃ p m', pageAlloc (initMemory boot nodes words) 256 0 = .ok (p, m') ∧
      m'.buddyMap = boot.buddyMap ∧ m'.freeCount 7 = 0 ∧
      checkBit m'.words (boot.buddyMap 7) ((boot.blockCount - 1) / 2) = true := by
  obtain ⟨threads, partition, region, maps, -⟩ := init_spec boot nodes words
  obtain ⟨last, counted⟩ := Nat.exists_eq_succ_of_ne_zero some
  have within : last / 2 * 2 ^ 8 < boot.managedPages := by
    simp only [BootMemory.managedPages, MAX_BUDDY_ORDER]
    omega
  have clear := init_bit boot nodes words within
  have place := small_bank_place boot small
  rw [counted] at threads partition place ⊢
  obtain ⟨p, m', returns, maps', empty, flipped⟩ := first_top_alloc region threads partition
  refine ⟨p, m', returns, maps'.trans maps, empty, ?_⟩
  rw [flipped, maps, check_bit_xor_bit]
  simp only [Nat.succ_eq_add_one, Nat.add_sub_cancel] at place ⊢
  rw [if_pos place, clear]
  rfl

/-- The invariant fails in a reachable state of every bank that is too small for its
bit maps and large enough for a block. -/
theorem small_bank_unsound (small : boot.pgCount < 2048) (some : boot.blockCount ≠ 0) :
    ∃ m used, BuddyReachable boot m used ∧ m.freeCount 7 = 0 ∧
      checkBit m.words (m.buddyMap 7) ((boot.blockCount - 1) / 2) = true ∧
      ¬BuddySound boot m used := by
  obtain ⟨p, m, call, maps, empty, set⟩ := small_bank_alloc boot
    (fun _ => { prev := 0, next := 0 }) (fun _ => 0#32) small some
  refine ⟨m, _, .alloc (.init _ _) call, empty, maps ▸ set, fun sound => ?_⟩
  obtain ⟨free, -, threads, -, bits⟩ := sound.blocks
  have none : free 7 = [] := by
    rw [← List.length_eq_zero_iff, ← threads.counts, empty]
  have within : (boot.blockCount - 1) / 2 * 2 ^ 8 < boot.managedPages := by
    simp only [BootMemory.managedPages, MAX_BUDDY_ORDER]
    omega
  have clear := bits 7 (by decide) _ within
  rw [maps, set, none] at clear
  simp at clear

end SmallBanks

/-- The invariant holds in every state of every run exactly when the bank has 2048
pages or more, or no block at all. -/
theorem buddy_sound_iff (boot : BootMemory) :
    (∀ m used, BuddyReachable boot m used → BuddySound boot m used) ↔
      2048 ≤ boot.pgCount ∨ boot.blockCount = 0 := by
  constructor
  · intro sound
    by_contra neither
    rw [not_or, not_le] at neither
    obtain ⟨m, used, reachable, -, -, unsound⟩ := small_bank_unsound boot neither.1 neither.2
    exact unsound (sound m used reachable)
  · intro large m used reachable
    obtain ⟨free, rep⟩ := reachable_represents large reachable
    exact rep.sound

/-- A bank of 4 MiB with the kernel image at its linked address. -/
def fourMegabytes : BootMemory where
  memoryStart := 0x80000000
  memoryEnd := 0x80400000
  kernBase := 0x80020000
  kernEnd := 0x80040000
  linked := by decide
  image := by decide
  startsBelow := by decide
  endsAbove := by decide
  addressable := by decide

theorem four_megabytes_blocks : fourMegabytes.blockCount = 3 := by decide

/-- In it, a reachable state has a bit of order 7 set while no block of order 7 is
free. -/
theorem four_megabytes_unsound :
    ∃ m used, BuddyReachable fourMegabytes m used ∧ m.freeCount 7 = 0 ∧
      checkBit m.words (m.buddyMap 7) 1 = true ∧ ¬BuddySound fourMegabytes m used := by
  have unsound := small_bank_unsound fourMegabytes (by decide) (four_megabytes_blocks ▸ by decide)
  rwa [four_megabytes_blocks] at unsound

end Mftt
