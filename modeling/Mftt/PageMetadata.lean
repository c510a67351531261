import Mftt.BuddyCoalescing

/-!
# Descriptors of free pages

A release gives the pages of the block that it lists the descriptor of a free page, and so does
`init_memory`. An allocation writes the descriptors of the block that it takes from a list. When
the list of its order is empty it takes a larger block, writes the descriptors of all its pages,
and lists the lower half without another look at them. The pages of that half are free and have
the descriptors of pages with one owner.

So the descriptors tell free pages from pages in use as long as no allocation splits a block, and
the first one that does ends this.
-/

namespace Mftt

open DyadicBlocks

/-- The managed pages with the descriptor of a free page are those in blocks of the free lists. -/
def InfosMatch (boot : BootMemory) (m : MemoryInfo) : Prop :=
  ∃ free, Threads m free ∧ ∀ i < boot.managedPages,
    m.pagesInfo (m.pageId i) = freeInfo ↔ ∃ k, ∃ j ∈ free k, i ∈ block k j

/-- A request of `n` pages finds a block of its own order, or none at all. -/
def NoSplit (m : MemoryInfo) (n : Nat) : Prop :=
  m.freeCount (blockOrder n) ≠ 0 ∨ ∀ k, blockOrder n ≤ k → k < MAX_BUDDY_ORDER → m.freeCount k = 0

/-- Runs in which no allocation splits a block and releases are of the given orders. Owners of
pages may write their descriptors, but not make them those of free pages. -/
inductive UnsplitRun (boot : BootMemory) (orders : Set Nat) : MemoryInfo → Set Nat → Prop where
  | init (nodes : Nat → BlockList) (words : Words) :
      UnsplitRun boot orders (initMemory boot nodes words) ∅
  | alloc {m m' : MemoryInfo} {used : Set Nat} {n attr p : Nat} :
      UnsplitRun boot orders m used → NoSplit m n → pageAlloc m n attr = .ok (p, m') →
      UnsplitRun boot orders m' (used ∪ handedOut m p n)
  | free {m m' : MemoryInfo} {used : Set Nat} {n j result : Nat} :
      UnsplitRun boot orders m used → blockOrder n < MAX_BUDDY_ORDER → blockOrder n ∈ orders →
      block (blockOrder n) j ⊆ used →
      pageFree m (m.blockAddress (blockOrder n) j) n = .ok (result, m') →
      UnsplitRun boot orders m' (used \ block (blockOrder n) j)
  | write {m m' : MemoryInfo} {used : Set Nat} :
      UnsplitRun boot orders m used → OwnerWrites m m' used →
      (∀ i ∈ used, m'.pagesInfo (m.pageId i) ≠ freeInfo) → UnsplitRun boot orders m' used

/-! ## The descriptors after each routine -/

variable {m m' : MemoryInfo} {p : Nat} {free : Nat → List Nat} {used : Set Nat}

section Routines

variable {m₁ : MemoryInfo} {pages order j : Nat}

/-- An allocation that splits a block leaves a free page with the descriptor of a page in use. -/
theorem alloc_split_infos (above attr : Nat) (total : order + (above + 1) = MAX_BUDDY_ORDER)
    (rep : Represents m pages free used) (none : m.freeCount order = 0)
    (call : allocatePagesOfPower2 (above + 1) order attr m = .ok (p, m')) (valid : p ≠ 0) :
    ∃ j, Allocates m pages used order attr j m' ∧ ∃ i < pages, i ∉ used ∪ block order j ∧
      m'.pagesInfo (m.pageId i) = { type := 0, reference := 1 } := by
  rcases allocate_spec above (order + 1) 0 (by omega) rep with
    ⟨returns, -⟩ | ⟨j, m₁, returns, allocated, -⟩
  · cases (allocate_refused above attr none returns).symm.trans call
    exact absurd rfl valid
  · obtain ⟨free₁, rep₁⟩ := allocated.represents
    obtain ⟨m₂, gives, halved, -, kept⟩ :=
      allocated.halve rep.layout rep₁ (by omega) attr none returns
    have first : 2 * j * 2 ^ order ∈ block order (2 * j) := first_mem_block order (2 * j)
    have whole : 2 * j * 2 ^ order ∈ block (order + 1) j := by
      rw [block_succ]
      exact .inl first
    have apart : 2 * j * 2 ^ order ∉ block order (2 * j + 1) := fun upper =>
      Set.disjoint_left.mp (block_disjoint (by omega)) first upper
    cases gives.symm.trans call
    refine ⟨2 * j + 1, halved, 2 * j * 2 ^ order, ?_, ?_, ?_⟩
    · exact rep₁.partition.usedInside _ (.inr whole)
    · rintro (inUse | upper)
      · exact Set.disjoint_left.mp allocated.fresh inUse whole
      · exact apart upper
    · exact (kept _ apart).trans (allocated.infos _ whole)

end Routines

/-! ## Runs -/

section Runs

variable {boot : BootMemory} {orders : Set Nat} {n attr : Nat}

/-- The managed pages with the descriptor of a free page are those not in use. -/
def UnusedMatch (boot : BootMemory) (m : MemoryInfo) (used : Set Nat) : Prop :=
  ∀ i < boot.managedPages, m.pagesInfo (m.pageId i) = freeInfo ↔ i ∉ used

theorem infos_match_iff (partition : Partition boot.managedPages free used)
    (threads : Threads m free) : InfosMatch boot m ↔ UnusedMatch boot m used := by
  have listed : ∀ i < boot.managedPages, (∃ k, ∃ j ∈ free k, i ∈ block k j) ↔ i ∉ used := by
    intro i inside
    constructor
    · rintro ⟨k, j, member, within⟩ inUse
      exact partition.usedApart i inUse k (within ▸ member)
    · intro unused
      obtain ⟨k, member⟩ := (partition.covered i inside).resolve_left unused
      exact ⟨k, _, member, mem_block.mpr rfl⟩
  constructor
  · rintro ⟨free', threads', matched⟩ i inside
    rw [matched i inside, threads'.unique threads, listed i inside]
  · intro matched
    exact ⟨free, threads, fun i inside => (matched i inside).trans (listed i inside).symm⟩

theorem page_number {start usable : Nat} (starts : start ≤ usable) (aligned : start % PG_SIZE = 0)
    (rounded : usable % PG_SIZE = 0) (i : Nat) :
    start + (usable + i * PG_SIZE - start) / PG_SIZE * PG_SIZE = usable + i * PG_SIZE := by
  simp only [PG_SIZE] at *
  omega

/-- The descriptor that `init_memory` writes for a managed page. -/
theorem boot_info_managed (aligned : boot.memoryStart % PG_SIZE = 0) {i : Nat}
    (inside : i < boot.managedPages) :
    bootInfo boot ((boot.usableMemoryStart + i * PG_SIZE - boot.memoryStart) / PG_SIZE) =
      freeInfo := by
  have some : boot.blockCount ≠ 0 := by
    rintro none
    rw [BootMemory.managedPages, none] at inside
    exact absurd inside (Nat.not_lt_zero i)
  have room := boot.managed_room some
  have descriptors := boot.descriptors_end
  have usable := boot.usable_end_le
  have starts : boot.memoryStart ≤ boot.usableMemoryStart :=
    (boot.startsBelow.trans boot.image).trans boot.usable_start_ge
  have rounded : boot.usableMemoryStart % PG_SIZE = 0 := Nat.mul_mod_left _ _
  have maps : boot.buddyMap0 ≤ boot.memoryEnd := by
    simp only [BootMemory.buddyMap0, roundDownWith]
    omega
  have page := page_number starts aligned rounded i
  have below : boot.usableMemoryStart + i * PG_SIZE + PG_SIZE ≤ boot.usableMemoryEnd := by
    simp only [PG_SIZE] at room ⊢
    omega
  have count : ¬ boot.pgCount ≤
      (boot.usableMemoryStart + i * PG_SIZE - boot.memoryStart) / PG_SIZE := by
    simp only [BootMemory.pgCount, PG_SIZE] at below ⊢
    omega
  rw [bootInfo]
  simp only [page, if_neg count, Nat.le_add_right, true_and,
    if_pos (lt_of_lt_of_le (Nat.lt_add_of_pos_right (by decide)) below)]
  rfl

/-- Numbers of descriptors after blocks were listed and all descriptors were written. -/
theorem page_id_described {turns : Nat} {scope : Set Nat}
    (changed : ChangedWithin m (pushBlocks m turns) scope) (infos : Nat → PageInfo) (i : Nat) :
    { pushBlocks m turns with pagesInfo := infos }.pageId i =
      (m.usableMemoryStart + i * PG_SIZE - m.memoryStart) / PG_SIZE := by
  rw [MemoryInfo.pageId, MemoryInfo.getIdByPage, MemoryInfo.pageAddress]
  dsimp only
  rw [changed.memoryStart, changed.usableMemoryStart]

/-- The descriptors that `init_memory` writes for managed pages. -/
theorem init_infos (aligned : boot.memoryStart % PG_SIZE = 0) (nodes : Nat → BlockList)
    (words : Words) : UnusedMatch boot (initMemory boot nodes words) ∅ := by
  intro i inside
  obtain ⟨-, -, changed, -⟩ := push_blocks_spec (cleared_region boot nodes words)
    (fun _ => rfl) (fun _ => rfl) boot.blockCount le_rfl
  rw [initMemory, page_id_described changed]
  exact iff_of_true (boot_info_managed aligned inside) (Set.notMem_empty i)

theorem UnusedMatch.take {k j : Nat} {info : PageInfo} (matched : UnusedMatch boot m used)
    (described : Described m m' k j info) (other : info ≠ freeInfo) :
    UnusedMatch boot m' (used ∪ block k j) := by
  intro i inside
  rw [described.numbers]
  by_cases member : i ∈ block k j
  · rw [described.inside i member]
    exact iff_of_false other (not_not.mpr (.inr member))
  · rw [described.outside i member, matched i inside]
    exact not_congr ⟨.inl, fun used => used.resolve_right member⟩

theorem UnusedMatch.give {k j : Nat} (matched : UnusedMatch boot m used)
    (described : Described m m' k j freeInfo) : UnusedMatch boot m' (used \ block k j) := by
  intro i inside
  rw [described.numbers]
  by_cases member : i ∈ block k j
  · exact iff_of_true (described.inside i member) fun still => still.2 member
  · rw [described.outside i member, matched i inside]
    exact not_congr ⟨fun inUse => ⟨inUse, member⟩, And.left⟩

/-- Owners keep their pages in use. -/
theorem UnusedMatch.write {pages : Nat} (matched : UnusedMatch boot m used)
    (region : Region m pages) (writes : OwnerWrites m m' used)
    (owned : ∀ i ∈ used, m'.pagesInfo (m.pageId i) ≠ freeInfo) : UnusedMatch boot m' used := by
  intro i inside
  rw [writes.changed.page_id]
  by_cases inUse : i ∈ used
  · exact iff_of_false (owned i inUse) (not_not.mpr inUse)
  · rw [writes.changed.info region inUse, matched i inside]

section

variable (rep : Represents m boot.managedPages free used)
include rep

/-- The order of a request that finds a block. -/
theorem order_of_counted {k : Nat} (counted : m.freeCount k ≠ 0) : k < MAX_BUDDY_ORDER := by
  by_contra above
  rw [rep.threads.counts, rep.orders k (by omega)] at counted
  exact counted rfl

/-- An allocation without a split keeps the descriptors in step. -/
theorem alloc_matches (matched : UnusedMatch boot m used) (unsplit : NoSplit m n)
    (call : pageAlloc m n attr = .ok (p, m')) :
    ∃ free', Represents m' boot.managedPages free' (used ∪ handedOut m p n) ∧
      UnusedMatch boot m' (used ∪ handedOut m p n) := by
  rcases unsplit with counted | none
  · have bounded := order_of_counted rep counted
    obtain ⟨above, total⟩ : ∃ above, MAX_BUDDY_ORDER - blockOrder n = above + 1 :=
      ⟨MAX_BUDDY_ORDER - blockOrder n - 1, by omega⟩
    have some : free (blockOrder n) ≠ [] := by
      rw [rep.threads.counts, List.length_eq_zero_iff.ne] at counted
      exact counted
    obtain ⟨j, m₁, returns, allocated, rep', kept⟩ := rep.allocate_first above attr some
    rw [pageAlloc, total] at call
    cases returns.symm.trans call
    rw [handed_out_block rep.layout.toRegion]
    exact ⟨_, rep', matched.take ⟨allocated.changed.page_id, allocated.infos, kept⟩
      (by simp [freeInfo])⟩
  · rcases page_alloc_spec n attr rep with ⟨returns, -⟩ | ⟨j, m₁, -, -, k, above, some⟩
    · cases returns.symm.trans call
      rw [handed_out_null, Set.union_empty]
      exact ⟨free, rep, matched⟩
    · have empty := none k above (by
        by_contra large
        exact some (rep.orders k (by omega)))
      rw [rep.threads.counts] at empty
      exact absurd (List.length_eq_zero_iff.mp empty) some

/-- An allocation that splits a block leaves a free page with another descriptor. -/
theorem split_mismatches (split : ¬ NoSplit m n) (call : pageAlloc m n attr = .ok (p, m')) :
    ¬ InfosMatch boot m' := by
  simp only [NoSplit, not_or, not_not, not_forall] at split
  obtain ⟨none, k, above, bounded, some⟩ := split
  obtain ⟨orders, total⟩ : ∃ above, MAX_BUDDY_ORDER - blockOrder n = above + 1 :=
    ⟨MAX_BUDDY_ORDER - blockOrder n - 1, by omega⟩
  have valid : p ≠ 0 := by
    rcases page_alloc_spec n attr rep with ⟨-, empty⟩ | ⟨j, m₁, returns, -⟩
    · rw [rep.threads.counts, empty k above] at some
      exact absurd rfl some
    · cases returns.symm.trans call
      exact rep.layout.block_ne_zero
  rw [pageAlloc, total] at call
  obtain ⟨j, allocated, i, inside, unused, info⟩ :=
    alloc_split_infos orders attr (by omega) rep none call valid
  obtain ⟨free', rep'⟩ := allocated.represents
  rw [infos_match_iff rep'.partition rep'.threads]
  intro matched
  have clean := (matched i inside).mpr unused
  rw [allocated.changed.page_id, info] at clean
  exact absurd clean (by decide)

/-- A release keeps the descriptors in step. -/
theorem free_matches {j result : Nat} (matched : UnusedMatch boot m used)
    (bounded : blockOrder n < MAX_BUDDY_ORDER) (inUse : block (blockOrder n) j ⊆ used)
    (call : pageFree m (m.blockAddress (blockOrder n) j) n = .ok (result, m')) :
    ∃ free', Represents m' boot.managedPages free' (used \ block (blockOrder n) j) ∧
      UnusedMatch boot m' (used \ block (blockOrder n) j) := by
  obtain ⟨m₁, returns, ⟨free', rep', -⟩, changed, others, freed⟩ :=
    free_coalesces (MAX_BUDDY_ORDER - 1 - blockOrder n) (by omega) rep inUse
  cases returns.symm.trans call
  refine ⟨free', rep', fun i inside => ?_⟩
  rw [changed.page_id]
  by_cases member : i ∈ block (blockOrder n) j
  · exact iff_of_true (freed i member) fun still => still.2 member
  · by_cases still : i ∈ used
    · have kept := changed.info rep.layout.toRegion fun free => free.2 ⟨still, member⟩
      rw [kept, matched i inside]
      exact iff_of_false (not_not.mpr still) (not_not.mpr ⟨still, member⟩)
    · have clean := (matched i inside).mpr still
      refine iff_of_true ?_ fun remains => still remains.1
      rcases others (m.pageId i) with kept | freed
      · rw [kept, clean]
      · exact freed

end

/-- In a run without splits from a bank with enough pages the descriptors are in step. -/
theorem unsplit_run_matches (aligned : boot.memoryStart % PG_SIZE = 0)
    (large : 2048 ≤ boot.pgCount ∨ boot.blockCount = 0) (run : UnsplitRun boot orders m used) :
    ∃ free, Represents m boot.managedPages free used ∧ UnusedMatch boot m used := by
  induction run with
  | init nodes words =>
    exact ⟨_, init_represents boot nodes words large, init_infos aligned nodes words⟩
  | alloc _ unsplit call ih =>
    obtain ⟨free, rep, matched⟩ := ih
    exact alloc_matches rep matched unsplit call
  | free _ bounded _ inUse call ih =>
    obtain ⟨free, rep, matched⟩ := ih
    exact free_matches rep matched bounded inUse call
  | write _ writes owned ih =>
    obtain ⟨free, rep, matched⟩ := ih
    exact ⟨free, rep.owner_writes writes, matched.write rep.layout.toRegion writes owned⟩

/-- A list of the wrong order is empty. -/
theorem allocate_none {order : Nat} (above attr : Nat) (total : order + above = MAX_BUDDY_ORDER)
    (none : ∀ k, order ≤ k → k < MAX_BUDDY_ORDER → m.freeCount k = 0) :
    allocatePagesOfPower2 above order attr m = .ok (0, m) := by
  induction above generalizing order attr with
  | zero => rfl
  | succ above ih =>
    exact allocate_refused above attr (none order le_rfl (by omega))
      (ih 0 (by omega) fun k lower => none k (by omega))

/-- In a run with releases of largest blocks only the descriptors are in step, in every bank: all
free blocks stay largest ones, and the bit maps are not looked at. -/
theorem whole_run_matches (aligned : boot.memoryStart % PG_SIZE = 0)
    (whole : orders ⊆ {MAX_BUDDY_ORDER - 1}) (run : UnsplitRun boot orders m used) :
    ∃ free, Threaded m boot.managedPages free used ∧ (∀ k ≠ MAX_BUDDY_ORDER - 1, free k = []) ∧
      UnusedMatch boot m used := by
  induction run with
  | init nodes words =>
    obtain ⟨threads, partition, region, -⟩ := init_spec boot nodes words
    exact ⟨_, ⟨region, partition, threads⟩, fun k => top_blocks_below _,
      init_infos aligned nodes words⟩
  | @alloc m m' used n attr p _ unsplit call ih =>
    obtain ⟨free, linked, top, matched⟩ := ih
    rcases unsplit with counted | none
    · have some : free (blockOrder n) ≠ [] := by
        rwa [linked.threads.counts, List.length_eq_zero_iff.ne] at counted
      have order : blockOrder n = MAX_BUDDY_ORDER - 1 := not_not.mp fun other =>
        some (top _ other)
      obtain ⟨j, rest, first⟩ := List.exists_cons_of_ne_nil some
      obtain ⟨m₁, returns, linked', -, -, start, described⟩ := linked.takeFirst first 0 attr
      rw [pageAlloc, order] at call
      rw [order] at returns linked' described
      cases returns.symm.trans call
      rw [← order, handed_out_block linked.region, order]
      refine ⟨_, linked', fun k other => ?_, matched.take described (by simp [freeInfo])⟩
      rw [Function.update_of_ne other, top k other]
    · have refused : pageAlloc m n attr = .ok (0, m) := by
        by_cases small : blockOrder n ≤ MAX_BUDDY_ORDER
        · exact allocate_none _ attr (by omega) none
        · rw [pageAlloc, Nat.sub_eq_zero_of_le (by omega)]
          rfl
      cases refused.symm.trans call
      rw [handed_out_null, Set.union_empty]
      exact ⟨free, linked, top, matched⟩
  | @free m m' used n j result _ _ member inUse call ih =>
    obtain ⟨free, linked, top, matched⟩ := ih
    have order : blockOrder n = MAX_BUDDY_ORDER - 1 := whole member
    rw [order] at inUse call ⊢
    obtain ⟨m₁, returns, linked', -, -, -, described⟩ := linked.release 0 inUse (.inl rfl)
    rw [pageFree, order] at call
    cases returns.symm.trans call
    refine ⟨_, linked', fun k other => ?_, matched.give described⟩
    rw [Function.update_of_ne other, top k other]
  | write _ writes owned ih =>
    obtain ⟨free, linked, top, matched⟩ := ih
    exact ⟨free, ⟨linked.region.changed writes.changed, linked.partition,
      linked.threads.owner_writes linked.partition writes⟩, top,
      matched.write linked.region writes owned⟩

end Runs

/-- In a bank that starts with a page the descriptors tell the free pages in every state of a run
in which no allocation splits a block, if the bank has at least 2048 pages or no block, or if the
run gives back largest blocks only. In the first two cases an allocation from such a state keeps
this exactly if it splits none. -/
theorem page_infos_match (boot : BootMemory) (aligned : boot.memoryStart % PG_SIZE = 0)
    (orders : Set Nat) (m : MemoryInfo) (used : Set Nat) (run : UnsplitRun boot orders m used)
    (fits : (2048 ≤ boot.pgCount ∨ boot.blockCount = 0) ∨ orders ⊆ {MAX_BUDDY_ORDER - 1}) :
    InfosMatch boot m ∧ (2048 ≤ boot.pgCount ∨ boot.blockCount = 0 →
      ∀ n attr p m', pageAlloc m n attr = .ok (p, m') → (InfosMatch boot m' ↔ NoSplit m n)) := by
  constructor
  · rcases fits with large | whole
    · obtain ⟨free, rep, matched⟩ := unsplit_run_matches aligned large run
      exact (infos_match_iff rep.partition rep.threads).mpr matched
    · obtain ⟨free, linked, -, matched⟩ := whole_run_matches aligned whole run
      exact (infos_match_iff linked.partition linked.threads).mpr matched
  · intro large n attr p m' call
    obtain ⟨free, rep, matched⟩ := unsplit_run_matches aligned large run
    by_cases unsplit : NoSplit m n
    · obtain ⟨free', rep', matched'⟩ := alloc_matches rep matched unsplit call
      exact iff_of_true ((infos_match_iff rep'.partition rep'.threads).mpr matched') unsplit
    · exact iff_of_false (split_mismatches rep unsplit call) unsplit

/-- A largest block is taken and released, and the descriptors tell the free pages all along. -/
theorem eight_megabytes_match : ∃ p m m',
    pageAlloc (initMemory eightMegabytes (fun _ => ⟨0, 0⟩) fun _ => 0) 256 0 = .ok (p, m) ∧
      InfosMatch eightMegabytes m ∧ pageFree m p 256 = .ok (0, m') ∧
      InfosMatch eightMegabytes m' := by
  obtain ⟨j, m, m', counted, allocs, same, handed, frees⟩ := eight_megabytes_served
  have start : UnsplitRun eightMegabytes Set.univ
      (initMemory eightMegabytes (fun _ => ⟨0, 0⟩) fun _ => 0) ∅ := .init _ _
  have taken := start.alloc (.inl counted) allocs
  rw [handed, Set.empty_union] at taken
  have released := taken.free (by decide) trivial subset_rfl frees
  have inStep := fun m used run =>
    (page_infos_match eightMegabytes (by decide) Set.univ m used run (.inl (.inl (by decide)))).1
  exact ⟨_, m, m', allocs, inStep _ _ taken, same ▸ frees, inStep _ _ released⟩

theorem first_page_splits (boot : BootMemory) (some : boot.blockCount ≠ 0)
    (nodes : Nat → BlockList) (words : Words) : ¬ NoSplit (initMemory boot nodes words) 1 := by
  obtain ⟨threads, -⟩ := init_spec boot nodes words
  have order : blockOrder 1 = 0 := by decide
  rw [NoSplit, threads.counts]
  rintro (counted | none)
  · exact counted rfl
  · have top := none (MAX_BUDDY_ORDER - 1) (Nat.zero_le _) (by decide)
    rw [threads.counts, topBlocks, Function.update_self, List.length_reverse, List.length_range]
      at top
    exact some top

/-- After the first allocation of a page they do not. -/
theorem eight_megabytes_mismatch :
    ∃ m used, BuddyReachable eightMegabytes m used ∧ ¬ InfosMatch eightMegabytes m := by
  have rep := init_represents eightMegabytes (fun _ => ⟨0, 0⟩) (fun _ => 0) (.inl (by decide))
  have split := first_page_splits eightMegabytes (by decide) (fun _ => ⟨0, 0⟩) fun _ => 0
  rcases page_alloc_spec 1 0 rep with ⟨call, -⟩ | ⟨j, m, call, -⟩
  · exact ⟨_, _, .alloc (.init _ _) call, split_mismatches rep split call⟩
  · exact ⟨_, _, .alloc (.init _ _) call, split_mismatches rep split call⟩

end Mftt
