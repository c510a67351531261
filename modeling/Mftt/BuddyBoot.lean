import Mftt.BuddyOperations

/-!
# The state that `init_memory` builds

The tables at the end of the bank do not overlap each other or the usable pages,
so the typed parts of the state are really separate. The loop over the largest
blocks links them like `attach_to_free_list` does, and after it all managed pages
are free.

The bit maps are the exception. The map of an order gets `pg_count >> (order + 1)`
eighths of a word, which is no word at all for the order below the last in a bank of
fewer than 2048 pages; the map of the last order then starts at the same word.
-/

namespace Mftt

open DyadicBlocks Function

namespace BootMemory

variable (boot : BootMemory)

/-- Pages on the free lists after `init_memory`. -/
def managedPages : Nat := boot.blockCount * 2 ^ (MAX_BUDDY_ORDER - 1)

theorem usable_start_ge : boot.kernEnd ≤ boot.usableMemoryStart := by
  simp only [usableMemoryStart, roundUpWith, PG_SIZE]
  omega

/-- The largest blocks end strictly below the usable end. -/
theorem managed_room (some : boot.blockCount ≠ 0) :
    boot.usableMemoryStart + boot.managedPages * PG_SIZE < boot.usableMemoryEnd := by
  simp only [managedPages, blockCount, maxBlockSize, PG_SIZE, MAX_BUDDY_ORDER] at some ⊢
  omega

theorem descriptors_end : boot.pagesInfoBase + boot.pgInfoSize ≤ boot.buddyMap0 := by
  simp only [pagesInfoBase, buddyMap0, roundDownWith, pgInfoSize, buddyTableSize, pgCount,
    MAX_BUDDY_ORDER, PG_SIZE]
  omega

theorem usable_end_le : boot.usableMemoryEnd ≤ boot.pagesInfoBase := by
  simp only [usableMemoryEnd, roundDownWith, PG_SIZE]
  omega

theorem managed_le_pages : boot.managedPages ≤ boot.pgCount := by
  by_cases none : boot.blockCount = 0
  · simp [managedPages, none]
  have room := boot.managed_room none
  have start := boot.usable_start_ge
  have image := boot.image
  have startsBelow := boot.startsBelow
  have tables := boot.usable_end_le
  have descriptors := boot.descriptors_end
  have maps : boot.buddyMap0 ≤ boot.memoryEnd := by
    simp only [buddyMap0, roundDownWith]
    omega
  simp only [pgCount, PG_SIZE] at room ⊢
  omega

theorem buddy_map_succ (order : Nat) :
    boot.buddyMap (order + 1) = boot.buddyMap order + 4 * (boot.pgCount / 2 ^ (order + 1) / 8) :=
  rfl

theorem buddy_map_mono {order other : Nat} (before : order ≤ other) :
    boot.buddyMap order ≤ boot.buddyMap other := by
  induction other, before using Nat.le_induction with
  | base => exact le_rfl
  | succ other _ ih =>
    rw [buddy_map_succ]
    omega

/-- The maps of the orders below the last take up half a byte per page at most. -/
theorem buddy_map_bound (order : Nat) :
    boot.buddyMap order + boot.pgCount / 2 ^ order / 2 ≤ boot.buddyMap0 + boot.pgCount / 2 := by
  induction order with
  | zero => simp [buddyMap]
  | succ order ih =>
    rw [buddy_map_succ, Nat.pow_succ, ← Nat.div_div_eq_div_mul]
    omega

variable {boot} {k q : Nat}

theorem pair_le (within : q * 2 ^ (k + 1) < boot.managedPages) :
    q ≤ boot.pgCount / 2 ^ (k + 1) := by
  rw [Nat.le_div_iff_mul_le (Nat.two_pow_pos _)]
  exact within.le.trans boot.managed_le_pages

/-- The words that hold the bits of managed pairs lie between the array of
descriptors and the end of the bank. -/
theorem pair_word_inside (within : q * 2 ^ (k + 1) < boot.managedPages) :
    boot.buddyMap0 ≤ boot.buddyMap k + 4 * (q / 32) ∧
      boot.buddyMap k + 4 * (q / 32) + 4 ≤ boot.memoryEnd := by
  have number := pair_le within
  have lower : boot.buddyMap 0 ≤ boot.buddyMap k := boot.buddy_map_mono (Nat.zero_le k)
  have upper := boot.buddy_map_bound k
  have pages : 2 ^ 8 ≤ boot.pgCount := by
    have managed := boot.managed_le_pages
    have some : boot.blockCount ≠ 0 := by
      intro none
      simp [managedPages, none] at within
    simp only [managedPages, MAX_BUDDY_ORDER] at managed
    omega
  rw [Nat.pow_succ, ← Nat.div_div_eq_div_mul] at number
  have table : boot.buddyMap0 + boot.buddyTableSize ≤ boot.memoryEnd := by
    simp only [buddyMap0, roundDownWith, buddyTableSize, pgCount, MAX_BUDDY_ORDER, PG_SIZE]
    omega
  simp only [buddyTableSize, MAX_BUDDY_ORDER] at table
  simp only [buddyMap] at lower
  omega

variable (large : 2048 ≤ boot.pgCount) (below : k < MAX_BUDDY_ORDER - 1)
  (within : q * 2 ^ (k + 1) < boot.managedPages)
include large below within

/-- With 2048 pages each map below the last order has room for its managed pairs. -/
theorem word_before_next : boot.buddyMap k + 4 * (q / 32) < boot.buddyMap (k + 1) := by
  have number := pair_le within
  have enough : 8 ≤ boot.pgCount / 2 ^ (k + 1) := by
    rw [Nat.le_div_iff_mul_le (Nat.two_pow_pos _)]
    have order : 2 ^ (k + 1) ≤ 2 ^ 8 := Nat.pow_le_pow_right (by decide) below
    omega
  rw [buddy_map_succ]
  omega

/-- Bits of two managed pairs are in different places, unless the pairs are equal or
both of the last order. -/
theorem pair_places {k' q' : Nat} (bounded : k' < MAX_BUDDY_ORDER)
    (within' : q' * 2 ^ (k' + 1) < boot.managedPages)
    (same : bitPlace (boot.buddyMap k) q = bitPlace (boot.buddyMap k') q') : k = k' ∧ q = q' := by
  simp only [bitPlace, Prod.mk.injEq] at same
  have ends := word_before_next large below within
  rcases Nat.lt_trichotomy k k' with less | equal | greater
  · have : boot.buddyMap (k + 1) ≤ boot.buddyMap k' := boot.buddy_map_mono less
    omega
  · subst equal
    omega
  · have : boot.buddyMap (k' + 1) ≤ boot.buddyMap k := boot.buddy_map_mono greater
    have := word_before_next large (by omega) within'
    omega

end BootMemory

section Blocks

variable {m m' : MemoryInfo} {pages p : Nat}

theorem set_prev_comm {x v w : Nat} (different : p ≠ x) :
    (m.setPrev p v).setPrev x w = (m.setPrev x w).setPrev p v := by
  simp only [MemoryInfo.setPrev, update_of_ne different,
    update_of_ne different.symm, update_comm different]

/-- One turn of the loop of `init_memory` does what `attach_to_free_list` and the
counter after it do, in another order of stores. -/
theorem push_block_eq (fits : BlockFits m p (MAX_BUDDY_ORDER - 1)) (valid : p ≠ 0)
    (unlisted : m.freeList (MAX_BUDDY_ORDER - 1) ≠ p)
    (attached : attachToFreeList m p (MAX_BUDDY_ORDER - 1) = .ok m') :
    pushBlock m p = m'.setCount (MAX_BUDDY_ORDER - 1) (m'.freeCount (MAX_BUDDY_ORDER - 1) + 1) := by
  simp only [attachToFreeList, assert_true _ fits, not_null_of_ne valid, bind_ok, pure_eq_ok,
    Except.ok.injEq] at attached
  subst attached
  simp only [pushBlock]
  split
  · rw [set_prev_comm unlisted.symm]
  · rfl

theorem head_listed {k : Nat} {blocks : List Nat} (lists : m.Lists k blocks) :
    m.freeList k = 0 ∨ m.freeList k ∈ blocks := by
  rw [ListSegment.segment_first lists.1]
  cases blocks with
  | nil => exact .inl rfl
  | cons b rest => exact .inr (by simp)

/-- The free lists after some turns: the blocks met so far, the last one first. -/
def topBlocks (turns : Nat) : Nat → List Nat :=
  update (fun _ => []) (MAX_BUDDY_ORDER - 1) (List.range turns).reverse

theorem top_blocks_succ (turns : Nat) :
    update (topBlocks turns) (MAX_BUDDY_ORDER - 1)
      (turns :: topBlocks turns (MAX_BUDDY_ORDER - 1)) = topBlocks (turns + 1) := by
  simp [topBlocks, List.range_succ]

/-- The pages the loop has not met yet. -/
def pagesAhead (pages turns : Nat) : Set Nat :=
  {i | turns * 2 ^ (MAX_BUDDY_ORDER - 1) ≤ i ∧ i < pages}

theorem pages_ahead_succ (pages turns : Nat) :
    pagesAhead pages turns \ block (MAX_BUDDY_ORDER - 1) turns = pagesAhead pages (turns + 1) := by
  ext i
  simp only [Set.mem_sdiff, mem_block_iff, pagesAhead, Set.mem_ofPred_eq, MAX_BUDDY_ORDER]
  omega

/-- The loop of `init_memory`: what has been met is free, the rest is not listed.

Proof: induction on the turns; one turn gives back one block of the last order. -/
theorem push_blocks_spec (region : Region m pages) (unlisted : ∀ k, m.freeList k = 0)
    (uncounted : ∀ k, m.freeCount k = 0) (turns : Nat)
    (inside : turns * 2 ^ (MAX_BUDDY_ORDER - 1) ≤ pages) :
    Threads (pushBlocks m turns) (topBlocks turns) ∧
      Partition pages (topBlocks turns) (pagesAhead pages turns) ∧
      ChangedWithin m (pushBlocks m turns) Set.univ ∧ (pushBlocks m turns).words = m.words := by
  induction turns with
  | zero =>
    have none : topBlocks 0 = fun _ => [] := by simp [topBlocks]
    rw [none]
    refine ⟨⟨fun k => ?_, uncounted⟩, ?_, ChangedWithin.refl m _, rfl⟩
    · simp [MemoryInfo.Lists, ListSegment.Segment, pushBlocks, unlisted]
    · constructor <;> simp [pagesAhead]
  | succ turns ih =>
    obtain ⟨threads, partition, changed, words⟩ :=
      ih (le_trans (Nat.mul_le_mul_right _ turns.le_succ) inside)
    have region' := region.changed changed
    have inUse : block (MAX_BUDDY_ORDER - 1) turns ⊆ pagesAhead pages turns := by
      intro i member
      rw [mem_block_iff] at member
      exact ⟨member.1, member.2.trans_le inside⟩
    obtain ⟨m', attached, same, threads', changed'⟩ :=
      attach_threads region' partition threads inUse
    have given := partition.give inUse
    rw [top_blocks_succ] at threads' given
    rw [pages_ahead_succ] at given
    have address : m.usableMemoryStart + turns * BootMemory.maxBlockSize =
        (pushBlocks m turns).blockAddress (MAX_BUDDY_ORDER - 1) turns := by
      rw [changed.block_address, MemoryInfo.blockAddress, MemoryInfo.pageAddress,
        BootMemory.maxBlockSize, Nat.mul_assoc]
    have notHead : (pushBlocks m turns).freeList (MAX_BUDDY_ORDER - 1) ≠
        (pushBlocks m turns).blockAddress (MAX_BUDDY_ORDER - 1) turns := by
      intro head
      rcases head_listed (threads.lists (MAX_BUDDY_ORDER - 1)) with zero | listed
      · exact region'.block_ne_zero (head.symm.trans zero)
      · rw [head, List.mem_map_of_injective (block_address_injective _ _)] at listed
        exact partition.used_unlisted inUse listed
    have turn := push_block_eq (region'.fits inside) region'.block_ne_zero notHead attached
    rw [pushBlocks, address, turn]
    refine ⟨threads', given, ?_, ?_⟩
    · exact (changed.trans (changed'.mono (Set.subset_univ _))).trans (set_count_changed _ _ _ _)
    · rw [← words, same]
      rfl

end Blocks

section Initial

variable (boot : BootMemory) (nodes : Nat → BlockList) (words : Words)

theorem cleared_region : Region (clearedMemory boot nodes words) boot.managedPages where
  base := by
    have linked := boot.linked
    have image := boot.image
    exact lt_of_lt_of_le (by omega) boot.usable_start_ge
  starts := (boot.startsBelow.trans boot.image).trans boot.usable_start_ge
  room some := boot.managed_room (fun none => some (by simp [BootMemory.managedPages, none]))

theorem pages_ahead_all (turns : Nat) :
    pagesAhead (turns * 2 ^ (MAX_BUDDY_ORDER - 1)) turns = ∅ := by
  ext i
  simp only [pagesAhead, Set.mem_ofPred_eq, Set.mem_empty_iff_false, iff_false, not_and, not_lt]
  exact id

/-- The descriptors are set up last; nothing else depends on them. -/
theorem described_memory {m : MemoryInfo} {pages turns : Nat} (region : Region m pages)
    (unlisted : ∀ k, m.freeList k = 0) (uncounted : ∀ k, m.freeCount k = 0)
    (whole : turns * 2 ^ (MAX_BUDDY_ORDER - 1) = pages) (infos : Nat → PageInfo) :
    let m' := { pushBlocks m turns with pagesInfo := infos }
    Threads m' (topBlocks turns) ∧ Partition pages (topBlocks turns) ∅ ∧ Region m' pages ∧
      m'.buddyMap = m.buddyMap ∧ m'.words = m.words ∧
      m'.usableMemoryStart = m.usableMemoryStart ∧ m'.usableMemoryEnd = m.usableMemoryEnd := by
  obtain ⟨threads, partition, changed, kept⟩ :=
    push_blocks_spec region unlisted uncounted turns whole.le
  rw [← whole, pages_ahead_all, whole] at partition
  have region' := region.changed changed
  exact ⟨⟨threads.lists, threads.counts⟩, partition,
    ⟨region'.base, region'.starts, region'.room⟩, changed.buddyMap, kept,
    changed.usableMemoryStart, changed.usableMemoryEnd⟩

/-- After `init_memory` all managed pages are free. -/
theorem init_spec :
    Threads (initMemory boot nodes words) (topBlocks boot.blockCount) ∧
      Partition boot.managedPages (topBlocks boot.blockCount) ∅ ∧
      Region (initMemory boot nodes words) boot.managedPages ∧
      (initMemory boot nodes words).buddyMap = boot.buddyMap ∧
      (initMemory boot nodes words).words = (clearedMemory boot nodes words).words ∧
      (initMemory boot nodes words).usableMemoryStart = boot.usableMemoryStart ∧
      (initMemory boot nodes words).usableMemoryEnd = boot.usableMemoryEnd :=
  described_memory (cleared_region boot nodes words) (fun _ => rfl) (fun _ => rfl) rfl
    (bootInfo boot)

theorem top_blocks_below {k : Nat} (turns : Nat) (other : k ≠ MAX_BUDDY_ORDER - 1) :
    topBlocks turns k = [] :=
  update_of_ne other _ _

theorem init_bit {k q : Nat} (within : q * 2 ^ (k + 1) < boot.managedPages) :
    checkBit (initMemory boot nodes words).words (boot.buddyMap k) q = false := by
  obtain ⟨-, -, -, -, kept, -⟩ := init_spec boot nodes words
  have inside := BootMemory.pair_word_inside within
  have tables := boot.usable_end_le
  have descriptors := boot.descriptors_end
  have cleared : (clearedMemory boot nodes words).words (boot.buddyMap k + 4 * (q / 32)) = 0#32 :=
    if_pos ⟨by omega, by omega⟩
  rw [kept, check_bit_eq, bitPlace, cleared]
  simp

/-- With 2048 pages `init_memory` builds a state that satisfies the invariant. So it
does in a bank too small for a single block, where there is nothing to manage. -/
theorem init_represents (large : 2048 ≤ boot.pgCount ∨ boot.blockCount = 0) :
    Represents (initMemory boot nodes words) boot.managedPages (topBlocks boot.blockCount) ∅ := by
  obtain ⟨threads, partition, region, maps, -⟩ := init_spec boot nodes words
  refine ⟨⟨region, ?_⟩, partition, ?_, threads, ?_⟩
  · intro k below q within k' bounded q' within' same
    rw [maps] at same
    rcases large with large | none
    · exact BootMemory.pair_places large below within bounded within' same
    · simp [BootMemory.managedPages, none] at within
  · intro k above
    exact top_blocks_below _ (Nat.ne_of_gt above)
  · intro k below q within
    rw [maps, init_bit boot nodes words within, top_blocks_below _ (Nat.ne_of_lt below)]
    simp

end Initial

end Mftt
