import Mathlib.Algebra.BigOperators.Group.Finset.Basic
import Mathlib.Algebra.Order.BigOperators.Group.Finset
import Mathlib.Data.List.Nodup
import Mathlib.Data.Set.Card
import Mathlib.Data.Set.Disjoint
import Mathlib.Logic.Function.Basic
import Mathlib.Order.Interval.Finset.Nat
import Mathlib.Order.CompletePartialOrder

/-!
# Dyadic blocks and partitions

The block of order `k` and number `j` is the interval of `2 ^ k` units that starts
at `j * 2 ^ k`. An interval of units is partitioned by a set of units in use and,
for each order, a list of free blocks. Taking a free block away turns its units
into units in use, and giving back a block whose units are all in use turns them
into units of a free block; both keep a partition a partition.

Nothing here depends on how the lists are stored or on how many orders there are.
-/

namespace DyadicBlocks

open Function Set

/-- Units of block `j` of order `k`. -/
def block (k j : Nat) : Set Nat := {i | i / 2 ^ k = j}

@[simp] theorem mem_block {k j i : Nat} : i ∈ block k j ↔ i / 2 ^ k = j := Iff.rfl

theorem mem_block_iff {k j i : Nat} : i ∈ block k j ↔ j * 2 ^ k ≤ i ∧ i < (j + 1) * 2 ^ k := by
  rw [mem_block, Nat.div_eq_iff (Nat.two_pow_pos k), Nat.add_mul]
  have := Nat.two_pow_pos k
  omega

theorem first_mem_block (k j : Nat) : j * 2 ^ k ∈ block k j :=
  Nat.mul_div_cancel j (Nat.two_pow_pos k)

/-- A block is made of the two halves of the order below. -/
theorem block_succ (k j : Nat) : block (k + 1) j = block k (2 * j) ∪ block k (2 * j + 1) := by
  ext i
  simp only [mem_block, mem_union, Nat.pow_succ, ← Nat.div_div_eq_div_mul]
  omega

theorem block_disjoint {k j j' : Nat} (different : j ≠ j') : Disjoint (block k j) (block k j') := by
  rw [disjoint_left]
  rintro i rfl other
  exact different other

/-- The units below `size` are partitioned into the units in use and the units of
the free blocks, each of which lies below `size` and occurs once. -/
structure Partition (size : Nat) (free : Nat → List Nat) (used : Set Nat) : Prop where
  unique : ∀ k, (free k).Nodup
  inside : ∀ k, ∀ j ∈ free k, (j + 1) * 2 ^ k ≤ size
  usedInside : ∀ i ∈ used, i < size
  covered : ∀ i < size, i ∈ used ∨ ∃ k, i / 2 ^ k ∈ free k
  usedApart : ∀ i ∈ used, ∀ k, i / 2 ^ k ∉ free k
  apart : ∀ i k k', i / 2 ^ k ∈ free k → i / 2 ^ k' ∈ free k' → k = k'

variable {size k j : Nat} {free : Nat → List Nat} {used : Set Nat}

/-- Membership in the lists after one block of one order has been dropped. -/
theorem mem_erased (unique : ∀ k, (free k).Nodup) (k' x : Nat) :
    x ∈ update free k ((free k).erase j) k' ↔ x ∈ free k' ∧ ¬(k' = k ∧ x = j) := by
  by_cases same : k' = k
  · subst same
    simp only [update_self, (unique k').mem_erase_iff, true_and]
    exact and_comm
  · simp [same]

/-- Membership in the lists after one block has been put in front of its list. -/
theorem mem_pushed (k' x : Nat) :
    x ∈ update free k (j :: free k) k' ↔ x ∈ free k' ∨ (k' = k ∧ x = j) := by
  by_cases same : k' = k
  · subst same
    simp only [update_self, List.mem_cons, true_and]
    exact or_comm
  · simp [same]

section

variable (partition : Partition size free used)
include partition

theorem Partition.free_unused (listed : j ∈ free k) : Disjoint used (block k j) := by
  rw [disjoint_left]
  rintro i inUse rfl
  exact partition.usedApart i inUse k listed

theorem Partition.free_inside (listed : j ∈ free k) : ∀ i ∈ block k j, i < size :=
  fun _ member => (mem_block_iff.mp member).2.trans_le (partition.inside k j listed)

/-- A block all of whose units are in use is on no list, and neither is any block
that shares a unit with it. -/
theorem Partition.used_unlisted (inUse : block k j ⊆ used) : j ∉ free k := by
  intro listed
  exact partition.usedApart _ (inUse (first_mem_block k j)) k
    ((first_mem_block k j : j * 2 ^ k / 2 ^ k = j).symm ▸ listed)

theorem Partition.take (listed : j ∈ free k) :
    Partition size (update free k ((free k).erase j)) (used ∪ block k j) where
  unique k' := by
    by_cases same : k' = k
    · subst same
      rw [update_self]
      exact (partition.unique k').erase j
    · rw [update_of_ne same]
      exact partition.unique k'
  inside k' j' member :=
    partition.inside k' j' ((mem_erased partition.unique k' j').mp member).1
  usedInside i member :=
    member.elim (partition.usedInside i) (partition.free_inside listed i)
  covered i below := by
    rcases partition.covered i below with inUse | ⟨k', member⟩
    · exact .inl (.inl inUse)
    · by_cases taken : k' = k ∧ i / 2 ^ k' = j
      · obtain ⟨rfl, inBlock⟩ := taken
        exact .inl (.inr inBlock)
      · exact .inr ⟨k', (mem_erased partition.unique k' _).mpr ⟨member, taken⟩⟩
  usedApart i member k' listed' := by
    obtain ⟨old, kept⟩ := (mem_erased partition.unique k' _).mp listed'
    rcases member with inUse | inBlock
    · exact partition.usedApart i inUse k' old
    · have same : k' = k := partition.apart i k' k old ((mem_block.mp inBlock).symm ▸ listed)
      subst same
      exact kept ⟨rfl, inBlock⟩
  apart i k₁ k₂ left right :=
    partition.apart i k₁ k₂ ((mem_erased partition.unique k₁ _).mp left).1
      ((mem_erased partition.unique k₂ _).mp right).1

/-- A block in use becomes free. -/
theorem Partition.give (inUse : block k j ⊆ used) :
    Partition size (update free k (j :: free k)) (used \ block k j) where
  unique k' := by
    by_cases same : k' = k
    · subst same
      rw [update_self]
      exact List.nodup_cons.mpr ⟨partition.used_unlisted inUse, partition.unique k'⟩
    · rw [update_of_ne same]
      exact partition.unique k'
  inside k' j' member := by
    rcases (mem_pushed k' j').mp member with old | ⟨rfl, rfl⟩
    · exact partition.inside k' j' old
    · have last : (j' + 1) * 2 ^ k' - 1 ∈ block k' j' := by
        rw [mem_block_iff, Nat.add_mul]
        have := Nat.two_pow_pos k'
        omega
      have := partition.usedInside _ (inUse last)
      omega
  usedInside i member := partition.usedInside i member.1
  covered i below := by
    by_cases given : i ∈ block k j
    · exact .inr ⟨k, (mem_pushed k _).mpr (.inr ⟨rfl, given⟩)⟩
    · rcases partition.covered i below with kept | ⟨k', member⟩
      · exact .inl ⟨kept, given⟩
      · exact .inr ⟨k', (mem_pushed k' _).mpr (.inl member)⟩
  usedApart i member k' listed := by
    rcases (mem_pushed k' _).mp listed with old | ⟨rfl, inBlock⟩
    · exact partition.usedApart i member.1 k' old
    · exact member.2 inBlock
  apart i k₁ k₂ left right := by
    rcases (mem_pushed k₁ _).mp left with oldLeft | ⟨rfl, inLeft⟩ <;>
      rcases (mem_pushed k₂ _).mp right with oldRight | ⟨rfl, inRight⟩
    · exact partition.apart i k₁ k₂ oldLeft oldRight
    · exact absurd oldLeft (partition.usedApart i (inUse inRight) k₁)
    · exact absurd oldRight (partition.usedApart i (inUse inLeft) k₂)
    · rfl

end

/-! ## Coalesced partitions -/

/-- Below the top order no two buddies are both free. -/
def Coalesced (top : Nat) (free : Nat → List Nat) : Prop :=
  ∀ k < top, ∀ q, ¬(2 * q ∈ free k ∧ 2 * q + 1 ∈ free k)

variable {top orders : Nat}

/-- Dropping blocks keeps a partition coalesced. -/
theorem Coalesced.erase (coalesced : Coalesced top free) (unique : ∀ k, (free k).Nodup)
    (k j : Nat) : Coalesced top (update free k ((free k).erase j)) := by
  intro k' below q both
  exact coalesced k' below q ⟨((mem_erased unique k' _).mp both.1).1,
    ((mem_erased unique k' _).mp both.2).1⟩

/-- So does giving back a block whose buddy is not free. -/
theorem Coalesced.push {buddy : Nat} (coalesced : Coalesced top free) (pair : j / 2 = buddy / 2)
    (other : buddy ≠ j) (absent : k < top → buddy ∉ free k) :
    Coalesced top (update free k (j :: free k)) := by
  rintro k' below q ⟨even, odd⟩
  rcases (mem_pushed k' _).mp even with oldEven | ⟨rfl, rfl⟩
  · rcases (mem_pushed k' _).mp odd with oldOdd | ⟨rfl, rfl⟩
    · exact coalesced k' below q ⟨oldEven, oldOdd⟩
    · refine absent below ?_
      rwa [show buddy = 2 * q by omega]
  · rcases (mem_pushed k' _).mp odd with oldOdd | ⟨-, same⟩
    · refine absent below ?_
      rwa [show buddy = 2 * q + 1 by omega]
    · omega

theorem block_coarser {k' i i' : Nat} (above : k ≤ k') (same : i / 2 ^ k = i' / 2 ^ k) :
    i / 2 ^ k' = i' / 2 ^ k' := by
  obtain ⟨d, rfl⟩ := Nat.exists_eq_add_of_le above
  rw [Nat.pow_add, ← Nat.div_div_eq_div_mul, same, Nat.div_div_eq_div_mul]

theorem first_mem_pair (k j : Nat) : j * 2 ^ k / 2 ^ (k + 1) = j / 2 := by
  rw [Nat.pow_succ, ← Nat.div_div_eq_div_mul, Nat.mul_div_cancel _ (Nat.two_pow_pos k)]

theorem Coalesced.contains (coalesced : Coalesced top free) (partition : Partition size free used)
    (small : k ≤ top) (unused : Disjoint used (block k j)) (inside : ∀ i ∈ block k j, i < size) :
    ∃ k', k ≤ k' ∧ j * 2 ^ k / 2 ^ k' ∈ free k' := by
  induction k generalizing j with
  | zero =>
    have here : j ∈ block 0 j := by simp
    rcases partition.covered j (inside j here) with inUse | ⟨k', member⟩
    · exact absurd here (disjoint_left.mp unused inUse)
    · exact ⟨k', Nat.zero_le k', by simpa using member⟩
  | succ k ih =>
    rw [block_succ, disjoint_union_right] at unused
    rw [block_succ] at inside
    obtain ⟨k₁, above₁, listed₁⟩ := ih (by omega) unused.1 fun i member => inside i (.inl member)
    obtain ⟨k₂, above₂, listed₂⟩ := ih (by omega) unused.2 fun i member => inside i (.inr member)
    have lower := first_mem_pair k (2 * j)
    have upper := first_mem_pair k (2 * j + 1)
    have whole : j * 2 ^ (k + 1) / 2 ^ (k + 1) = j := first_mem_block (k + 1) j
    rcases Nat.eq_or_lt_of_le above₁ with rfl | larger₁
    · rcases Nat.eq_or_lt_of_le above₂ with rfl | larger₂
      · rw [Nat.mul_div_cancel _ (Nat.two_pow_pos k)] at listed₁ listed₂
        exact absurd ⟨listed₁, listed₂⟩ (coalesced k (by omega) j)
      · refine ⟨k₂, larger₂, ?_⟩
        rwa [block_coarser (show k + 1 ≤ k₂ from larger₂)
          (by omega : j * 2 ^ (k + 1) / 2 ^ (k + 1) = (2 * j + 1) * 2 ^ k / 2 ^ (k + 1))]
    · refine ⟨k₁, larger₁, ?_⟩
      rwa [block_coarser (show k + 1 ≤ k₁ from larger₁)
        (by omega : j * 2 ^ (k + 1) / 2 ^ (k + 1) = 2 * j * 2 ^ k / 2 ^ (k + 1))]

/-- The free blocks of a coalesced partition are the largest blocks of free units, up to the top
order. -/
theorem Coalesced.mem_iff (coalesced : Coalesced top free) (partition : Partition size free used)
    (orders : ∀ k, top < k → free k = []) :
    j ∈ free k ↔ k ≤ top ∧ (∀ i ∈ block k j, i < size ∧ i ∉ used) ∧
      (k < top → ¬∀ i ∈ block (k + 1) (j / 2), i < size ∧ i ∉ used) := by
  constructor
  · intro listed
    have bounded : k ≤ top := by
      by_contra above
      rw [orders k (by omega)] at listed
      exact List.not_mem_nil listed
    refine ⟨bounded, fun i member => ⟨partition.free_inside listed i member, fun inUse =>
      disjoint_left.mp (partition.free_unused listed) inUse member⟩, fun below whole => ?_⟩
    -- A larger block of free units would be covered by a second free block.
    obtain ⟨k', above, listed'⟩ := coalesced.contains partition (show k + 1 ≤ top from below)
      (disjoint_left.mpr fun i inUse member => (whole i member).2 inUse)
      (fun i member => (whole i member).1)
    have first : j / 2 * 2 ^ (k + 1) / 2 ^ k' = j * 2 ^ k / 2 ^ k' := by
      refine block_coarser above ?_
      rw [first_mem_pair]
      exact first_mem_block (k + 1) (j / 2)
    rw [first] at listed'
    have same := partition.apart (j * 2 ^ k) k k'
      (by rwa [Nat.mul_div_cancel _ (Nat.two_pow_pos k)]) listed'
    omega
  · rintro ⟨bounded, unused, maximal⟩
    obtain ⟨k', above, listed⟩ := coalesced.contains partition bounded
      (disjoint_left.mpr fun i inUse member => (unused i member).2 inUse)
      (fun i member => (unused i member).1)
    rcases Nat.eq_or_lt_of_le above with rfl | larger
    · rwa [Nat.mul_div_cancel _ (Nat.two_pow_pos k)] at listed
    · -- The free block contains the pair, so the block is not maximal.
      have limit : k' ≤ top := by
        by_contra beyond
        rw [orders k' (by omega)] at listed
        exact List.not_mem_nil listed
      refine absurd (fun i member => ?_) (maximal (by omega))
      have within : i ∈ block k' (j * 2 ^ k / 2 ^ k') := by
        refine block_coarser larger ?_
        rw [first_mem_pair]
        exact member
      exact ⟨partition.free_inside listed i within, fun inUse =>
        disjoint_left.mp (partition.free_unused listed) inUse within⟩

/-! ## Counting units -/

theorem block_eq_interval (k j : Nat) :
    block k j = (Finset.Ico (j * 2 ^ k) ((j + 1) * 2 ^ k) : Finset Nat) := by
  ext i
  rw [mem_block_iff, Finset.mem_coe, Finset.mem_Ico]

theorem interval_card (k j : Nat) : (Finset.Ico (j * 2 ^ k) ((j + 1) * 2 ^ k)).card = 2 ^ k := by
  rw [Nat.card_Ico, Nat.add_mul, Nat.one_mul, Nat.add_sub_cancel_left]

/-- The units that are not in use are those of the free blocks. -/
theorem Partition.unused_eq (partition : Partition size free used)
    (bounded : ∀ k, orders ≤ k → free k = []) :
    {i | i < size ∧ i ∉ used} = ((Finset.range orders).biUnion fun k =>
      (free k).toFinset.biUnion fun j => Finset.Ico (j * 2 ^ k) ((j + 1) * 2 ^ k) : Finset Nat) := by
  ext i
  simp only [Finset.mem_coe, Finset.mem_biUnion, Finset.mem_range,
    List.mem_toFinset, Finset.mem_Ico, ← mem_block_iff]
  constructor
  · rintro ⟨inside, unused⟩
    obtain ⟨k, listed⟩ := (partition.covered i inside).resolve_left unused
    refine ⟨k, ?_, i / 2 ^ k, listed, mem_block.mpr rfl⟩
    by_contra above
    rw [bounded k (by omega)] at listed
    exact List.not_mem_nil listed
  · rintro ⟨k, -, j, listed, member⟩
    exact ⟨partition.free_inside listed i member, fun inUse =>
      disjoint_left.mp (partition.free_unused listed) inUse member⟩

/-- How many units are not in use. -/
theorem Partition.ncard_unused (partition : Partition size free used)
    (bounded : ∀ k, orders ≤ k → free k = []) :
    {i | i < size ∧ i ∉ used}.ncard =
      ∑ k ∈ Finset.range orders, (free k).length * 2 ^ k := by
  rw [partition.unused_eq bounded, ncard_coe_finset, Finset.card_biUnion]
  · refine Finset.sum_congr rfl fun k _ => ?_
    rw [Finset.card_biUnion, Finset.sum_const_nat fun j _ => interval_card k j,
      List.toFinset_card_of_nodup (partition.unique k)]
    intro j _ j' _ different
    rw [onFun, ← Finset.disjoint_coe, ← block_eq_interval, ← block_eq_interval]
    exact block_disjoint different
  · -- A unit lies in free blocks of one order only.
    intro k _ k' _ different
    rw [onFun, Finset.disjoint_left]
    intro i left right
    simp only [Finset.mem_biUnion, List.mem_toFinset, Finset.mem_Ico, ← mem_block_iff] at left right
    obtain ⟨_, listed, rfl⟩ := left
    obtain ⟨_, listed', rfl⟩ := right
    exact different (partition.apart i k k' listed listed')

theorem ncard_block (k j : Nat) : (block k j).ncard = 2 ^ k := by
  rw [block_eq_interval, ncard_coe_finset, interval_card]

/-- A block of unused units that is taken leaves fewer unused units by its size. -/
theorem ncard_unused_take (unused : Disjoint used (block k j))
    (inside : ∀ i ∈ block k j, i < size) :
    {i | i < size ∧ i ∉ used ∪ block k j}.ncard + 2 ^ k = {i | i < size ∧ i ∉ used}.ncard := by
  have finite : {i | i < size ∧ i ∉ used}.Finite :=
    (finite_Iio size).subset fun i member => member.1
  have within : block k j ⊆ {i | i < size ∧ i ∉ used} := fun i member =>
    ⟨inside i member, fun inUse => disjoint_left.mp unused inUse member⟩
  have rest : {i | i < size ∧ i ∉ used ∪ block k j} = {i | i < size ∧ i ∉ used} \ block k j := by
    ext i
    simp only [mem_ofPred_eq, mem_union, mem_sdiff, not_or, and_assoc]
  rw [rest, ← ncard_block k j]
  exact ncard_sdiff_add_ncard_of_subset within finite

end DyadicBlocks
