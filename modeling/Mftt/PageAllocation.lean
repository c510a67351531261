import Mathlib.Algebra.BigOperators.Ring.Finset
import Mftt.BuddyCoalescing

/-!
# Page allocation succeeds whenever it can

A call of `page_alloc` asks for a block of the least order that holds the pages. Where the free
blocks are the largest blocks of free pages, an aligned run of free pages lies in one of them, so
that the call finds a block exactly when there is such a run. What it takes is then gone from
`memory_available`, and of the allocated pages only those of the run get new descriptors.

In a bank of fewer than 2048 pages two free halves can stay unmerged. Once no block of the last
order is left, a call for a whole block returns NULL although all of its pages are free.
-/

namespace Mftt

open DyadicBlocks

/-- Run number `j` of `2 ^ k` pages, aligned to its length, is free as a whole. -/
def FreeRun (boot : BootMemory) (used : Set Nat) (k j : Nat) : Prop :=
  block k j ⊆ freePages boot.managedPages used

/-- The calls that are to return NULL. -/
def Unservable (boot : BootMemory) (used : Set Nat) (n : Nat) : Prop :=
  n = 0 ∨ 2 ^ (MAX_BUDDY_ORDER - 1) < n ∨ ¬∃ j, FreeRun boot used (Nat.clog 2 n) j

/-- A call has returned the free run at `p`: that much memory is gone, and of the allocated pages
those of the run have got the attribute and one reference, which no other page has. The field of
the type has 16 bits. -/
structure RunTaken (boot : BootMemory) (m : MemoryInfo) (used : Set Nat) (n attr p : Nat)
    (m' : MemoryInfo) : Prop where
  run : ∃ j, FreeRun boot used (Nat.clog 2 n) j ∧ p = m.blockAddress (Nat.clog 2 n) j ∧
    ∀ i ∈ block (Nat.clog 2 n) j,
      m'.pagesInfo (m.pageId i) = { type := attr % 2 ^ 16, reference := 1 }
  available : memoryAvailable m' + 2 ^ Nat.clog 2 n * PG_SIZE = memoryAvailable m
  others : ∀ i ∈ used, m'.pagesInfo (m.pageId i) = m.pagesInfo (m.pageId i)

/-- What is expected of `page_alloc(n, attr)` in a state with the pages in `used` allocated. -/
def AllocatesPages (boot : BootMemory) (m : MemoryInfo) (used : Set Nat) (n attr : Nat) : Prop :=
  ∃ p m', pageAlloc m n attr = .ok (p, m') ∧ (p = 0 ↔ Unservable boot used n) ∧
    (p = 0 → m' = m) ∧ (p ≠ 0 → RunTaken boot m used n attr p m')

variable {boot : BootMemory} {m : MemoryInfo} {free : Nat → List Nat} {used : Set Nat}

section Large

variable {m' : MemoryInfo} {pages n attr : Nat}

theorem Represents.memory_available (rep : Represents m pages free used) :
    memoryAvailable m = (freePages pages used).ncard * PG_SIZE := by
  have sum : memoryAvailable m =
      ∑ k ∈ Finset.range MAX_BUDDY_ORDER, m.freeCount k * (2 ^ k * PG_SIZE) :=
    (Multiset.sum_coe _).symm
  rw [freePages, rep.partition.ncard_unused rep.orders, sum, Finset.sum_mul]
  refine Finset.sum_congr rfl fun k _ => ?_
  rw [rep.threads.counts, Nat.mul_assoc]

/-- The orders that a call asks for. -/
theorem order_eq_clog (bounded : n < 2 ^ 64) (order : blockOrder n < MAX_BUDDY_ORDER) :
    n ≠ 0 ∧ n ≤ 2 ^ (MAX_BUDDY_ORDER - 1) ∧ blockOrder n = Nat.clog 2 n := by
  obtain ⟨positive, small⟩ :=
    (block_order_le_iff bounded (show MAX_BUDDY_ORDER - 1 < 64 by decide)).mp
    (Nat.le_sub_one_of_lt order)
  refine ⟨Nat.ne_zero_of_lt positive, small, block_order_eq_clog positive (small.trans ?_)⟩
  exact Nat.pow_le_pow_right (by decide) (by decide)

variable (rep : Represents m boot.managedPages free used)
  (coalesced : Coalesced (MAX_BUDDY_ORDER - 1) free) (bounded : n < 2 ^ 64)
include rep coalesced bounded

/-- Without a large enough free block no run of free pages is large enough. -/
theorem Represents.unservable (none : ∀ k, blockOrder n ≤ k → free k = []) :
    Unservable boot used n := by
  by_contra servable
  simp only [Unservable, not_or, not_not, not_lt] at servable
  obtain ⟨positive, small, j, run⟩ := servable
  have order := (block_order_le_iff bounded (show MAX_BUDDY_ORDER - 1 < 64 by decide)).mpr
    ⟨Nat.one_le_iff_ne_zero.mpr positive, small⟩
  obtain ⟨-, -, same⟩ := order_eq_clog bounded (Nat.lt_of_le_pred (by decide) order)
  rw [← same] at run
  obtain ⟨k, above, listed⟩ := coalesced.contains rep.partition order
    (Set.disjoint_left.mpr fun i inUse member => (run member).2 inUse)
    (fun i member => (run member).1)
  rw [none k above] at listed
  exact List.not_mem_nil listed

/-- Where no two buddies are free, a call meets its contract. -/
theorem Represents.allocates_pages (attr : Nat) : AllocatesPages boot m used n attr := by
  rcases page_alloc_spec n attr rep with
    ⟨returns, none⟩ | ⟨j, m', returns, allocated, k, above, some⟩
  · exact ⟨0, m, returns, iff_of_true rfl (rep.unservable coalesced bounded none), fun _ => rfl,
      fun valid => absurd rfl valid⟩
  · have order : blockOrder n < MAX_BUDDY_ORDER := by
      by_contra large
      exact some (rep.orders k (by omega))
    obtain ⟨positive, small, same⟩ := order_eq_clog bounded order
    obtain ⟨free', rep'⟩ := allocated.represents
    have inside : ∀ i ∈ block (blockOrder n) j, i < boot.managedPages :=
      fun i member => rep'.partition.usedInside i (.inr member)
    have run : FreeRun boot used (Nat.clog 2 n) j := by
      intro i member
      rw [← same] at member
      exact ⟨inside i member, fun inUse => Set.disjoint_left.mp allocated.fresh inUse member⟩
    have valid : m.blockAddress (blockOrder n) j ≠ 0 := rep.layout.block_ne_zero
    refine ⟨_, m', returns, iff_of_false valid ?_, fun null => absurd null valid, fun _ => ?_⟩
    · rintro (zero | large | noRun)
      · exact positive zero
      · exact absurd small (by omega)
      · exact noRun ⟨j, run⟩
    · refine ⟨⟨j, run, by rw [same], same ▸ allocated.infos⟩, ?_, fun i inUse => ?_⟩
      · rw [rep.memory_available, rep'.memory_available, ← same, ← Nat.add_mul]
        exact congrArg (· * PG_SIZE) (ncard_unused_take allocated.fresh inside)
      · exact allocated.changed.info rep.layout.toRegion fun unused => unused.2 inUse

end Large

theorem largest_taken (reachable : BuddyReachable boot m used)
    (linked : Threaded m boot.managedPages free used) :
    ∃ m' used' free', BuddyReachable boot m' used' ∧ Threaded m' boot.managedPages free' used' ∧
      free' 8 = [] ∧ ∀ k, k ≠ 8 → free' k = free k := by
  generalize left : free 8 = list
  induction list generalizing m used free with
  | nil => exact ⟨m, used, free, reachable, linked, left, fun _ _ => rfl⟩
  | cons j rest ih =>
    obtain ⟨m₁, reached, linked₁, -⟩ := linked.takeWhole reachable left
    obtain ⟨m', used', free', reached', linked', none, same⟩ :=
      ih reached linked₁ (Function.update_self ..)
    refine ⟨m', used', free', reached', linked', none, fun k other => ?_⟩
    rw [same k other, Function.update_of_ne other]

/-- Without a largest block a call for one returns NULL. -/
theorem Threaded.refuses_whole {pages : Nat} (linked : Threaded m pages free used)
    (none : free 8 = []) (attr : Nat) : pageAlloc m 256 attr = .ok (0, m) := by
  have count : m.freeCount 8 = 0 := by rw [linked.threads.counts, none, List.length_nil]
  exact allocate_refused 0 attr count rfl

/-- In every small bank that has a block, a state is reached in which all pages of the first block
are free and a call for a whole block returns NULL. -/
theorem small_bank_refuses (small : boot.pgCount < 2048) (some : boot.blockCount ≠ 0) :
    ∃ m used, BuddyReachable boot m used ∧ FreeRun boot used 8 0 ∧
      pageAlloc m 256 0 = .ok (0, m) := by
  obtain ⟨m, used, free, reachable, linked, lower, upper⟩ := small_bank_unmerged small some
  obtain ⟨m', used', free', reached, linked', none, same⟩ := largest_taken reachable linked
  rw [← same 7 (by decide)] at lower upper
  refine ⟨m', used', reached, ?_, linked'.refuses_whole none 0⟩
  have free_of_listed : ∀ {j}, j ∈ free' 7 → block 7 j ⊆ freePages boot.managedPages used' :=
    fun listed i member => ⟨linked'.partition.free_inside listed i member, fun inUse =>
      Set.disjoint_left.mp (linked'.partition.free_unused listed) inUse member⟩
  rw [FreeRun, block_succ 7 0]
  exact Set.union_subset (free_of_listed lower) (free_of_listed upper)

/-- A call that refuses a free block breaks its contract. -/
theorem refused_run (run : FreeRun boot used 8 0) (refuses : pageAlloc m 256 0 = .ok (0, m)) :
    ¬AllocatesPages boot m used 256 0 := by
  rintro ⟨p, m', returns, null, -⟩
  cases refuses.symm.trans returns
  rcases null.mp rfl with zero | large | none
  · cases zero
  · exact absurd large (by decide)
  · exact none ⟨0, run⟩

/-- In every state of every run `page_alloc` serves each call that can be served, exactly when the
bank has 2048 pages or more, or no block at all. -/
theorem page_alloc_complete_iff (boot : BootMemory) :
    (∀ m used, BuddyReachable boot m used → ∀ n < 2 ^ 64, ∀ attr,
      AllocatesPages boot m used n attr) ↔ 2048 ≤ boot.pgCount ∨ boot.blockCount = 0 := by
  constructor
  · intro complete
    by_contra neither
    rw [not_or, not_le] at neither
    obtain ⟨m, used, reachable, run, refuses⟩ := small_bank_refuses neither.1 neither.2
    exact refused_run run refuses (complete m used reachable 256 (by decide) 0)
  · intro large m used reachable n bounded attr
    obtain ⟨free, rep, coalesced⟩ := reachable_coalesced large reachable
    exact rep.allocates_pages coalesced bounded attr

/-- In the bank of 4 MiB a call for 256 pages is refused although such a run is free. -/
theorem four_megabytes_refuses :
    ∃ m used, BuddyReachable fourMegabytes m used ∧ FreeRun fourMegabytes used 8 0 ∧
      pageAlloc m 256 0 = .ok (0, m) ∧ ¬AllocatesPages fourMegabytes m used 256 0 := by
  obtain ⟨m, used, reachable, run, refuses⟩ :=
    small_bank_refuses four_megabytes_small four_megabytes_some
  exact ⟨m, used, reachable, run, refuses, refused_run run refuses⟩

/-- In every state of every run from a bank with enough pages, `memory_available` and the pages in
use make up the managed pages: no sequence of requests and releases loses or gains a page. -/
theorem memory_accounted (large : 2048 ≤ boot.pgCount ∨ boot.blockCount = 0)
    (reachable : BuddyReachable boot m used) :
    memoryAvailable m + used.ncard * PG_SIZE = boot.managedPages * PG_SIZE := by
  obtain ⟨free, rep⟩ := reachable_represents large reachable
  have inside : used ⊆ Set.Iio boot.managedPages := rep.partition.usedInside
  have unused : freePages boot.managedPages used = Set.Iio boot.managedPages \ used := rfl
  rw [rep.memory_available, unused, ← Nat.add_mul,
    Set.ncard_sdiff_add_ncard_of_subset inside (Set.finite_Iio _), ← Finset.coe_Iio,
    Set.ncard_coe_finset, Nat.card_Iio]

/-- A largest block is taken and released. -/
theorem eight_megabytes_accounted : ∃ p m m',
    pageAlloc (initMemory eightMegabytes (fun _ => ⟨0, 0⟩) fun _ => 0) 256 0 = .ok (p, m) ∧
      memoryAvailable m + 256 * PG_SIZE = eightMegabytes.managedPages * PG_SIZE ∧
      pageFree m p 256 = .ok (0, m') ∧
      memoryAvailable m' = eightMegabytes.managedPages * PG_SIZE := by
  obtain ⟨j, m, m', -, allocs, same, handed, frees⟩ := eight_megabytes_served
  have taken := BuddyReachable.alloc (.init _ _) allocs
  rw [handed, Set.empty_union] at taken
  have released := BuddyReachable.free taken (by decide) subset_rfl frees
  have during := memory_accounted (.inl (by decide)) taken
  have after := memory_accounted (.inl (by decide)) released
  rw [ncard_block, order_whole] at during
  rw [sdiff_self, Set.bot_eq_empty, Set.ncard_empty, Nat.zero_mul, Nat.add_zero] at after
  exact ⟨_, m, m', allocs, during, same ▸ frees, after⟩

end Mftt
