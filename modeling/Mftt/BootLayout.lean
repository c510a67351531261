import Mathlib.Data.List.Nodup
import Mathlib.Data.List.Range
import Mathlib.Order.Interval.Set.Disjoint
import Mftt.BuddyBoot

/-!
# The areas of a bank of memory

`init_memory` cuts a bank into the blocks of the largest order, the first pool of `kmalloc`, the
array of page descriptors and the bit maps of the buddy allocator. It places the tables downwards
from the end of the bank, rounds them, and queues blocks from the start of the usable memory until
one would reach the tables.

Here the addresses are computed as 64-bit numbers, for any bank of whole pages. With 2048 pages or
more the areas are apart from each other and inside the bank, provided that the usable memory
starts in the bank. The prober of the memory node sees to that: it accepts a bank that holds the
kernel image, and the usable memory starts behind the image.
-/

namespace Mftt

open BootMemory

/-- The bank as the prober leaves it in `memory_info`. -/
structure Bank where
  memoryStart : Nat
  memoryEnd : Nat
  usableMemoryStart : Nat

/-- Subtraction of 64-bit numbers. -/
def wordSub (a b : Nat) : Nat := (a + 2 ^ 64 - b) % 2 ^ 64

theorem word_sub_eq {a b : Nat} (le : b ≤ a) (word : a < 2 ^ 64) : wordSub a b = a - b := by
  rw [wordSub]
  omega

/-- What is known of the blocks after the loop of `init_memory`: the free list of the largest
order, and the address behind the last block. -/
@[ext] structure Queued where
  blocks : List Nat
  pg : Nat

namespace Bank

variable (bank : Bank)

def pgCount : Nat := wordSub bank.memoryEnd bank.memoryStart / PG_SIZE

/-- The size of the array of `struct page_info`. -/
def pgInfoSize : Nat := bank.pgCount * 4 % 2 ^ 64

def buddyTableSize : Nat :=
  (2 ^ MAX_BUDDY_ORDER - 1) * bank.pgCount % 2 ^ 64 / 2 ^ MAX_BUDDY_ORDER

/-- `buddy_map[i]`, whose elements are words of four bytes. -/
def buddyMap : Nat → Nat
  | 0 => roundDownWith 0x10 (wordSub bank.memoryEnd bank.buddyTableSize)
  | i + 1 => (buddyMap i + 4 * (bank.pgCount / 2 ^ (i + 1) / 8)) % 2 ^ 64

def pagesInfo : Nat := roundDownWith 0x10 (wordSub (bank.buddyMap 0) bank.pgInfoSize)

def usableMemoryEnd : Nat := roundDownWith PG_SIZE bank.pagesInfo

/-- The loop that queues blocks while `pg < limit`. -/
def queueBlocks (limit : Nat) : Nat → Queued → Except Fault Queued
  | 0, _ => .error .unfinished
  | turns + 1, l =>
    if l.pg < limit then
      queueBlocks limit turns ⟨l.pg :: l.blocks, (l.pg + maxBlockSize) % 2 ^ 64⟩
    else .ok l

/-- The layout that `init_memory` makes. -/
def initMemory (turns : Nat) : Except Fault Queued :=
  queueBlocks (wordSub bank.usableMemoryEnd maxBlockSize) turns
    ⟨[], bank.usableMemoryStart⟩

/-- The pool that is attached at the end of `init_memory`. -/
def poolAddr (l : Queued) : Nat := roundUpWith PG_SIZE l.pg % 2 ^ 64

def poolSize (l : Queued) : Nat := wordSub bank.usableMemoryEnd (poolAddr l)

/-- `GET_ID_BY_PAGE`. -/
def getIdByPage (page : Nat) : Int := ((page : Int) - bank.memoryStart).tdiv PG_SIZE

/-- The word of `buddy_map[order]` that `xor_buddy_map` changes for a page. -/
def mapWord (order page : Nat) : Nat :=
  bank.buddyMap order + 4 * (((page - bank.usableMemoryStart) / PG_SIZE / 2 ^ (order + 1)) / 32)

end Bank

/-- A page of a queued block. -/
def Queued.Managed (l : Queued) (page : Nat) : Prop :=
  ∃ p ∈ l.blocks, ∃ i < 2 ^ (MAX_BUDDY_ORDER - 1), page = p + i * PG_SIZE

/-- The areas of the bank. -/
inductive Area where
  | block (p : Nat)
  | pool
  | pagesInfo
  | buddyMap (order : Nat)

/-- The areas that a layout has. -/
def Area.Present (l : Queued) : Area → Prop
  | .block p => p ∈ l.blocks
  | .pool => True
  | .pagesInfo => True
  | .buddyMap order => order < MAX_BUDDY_ORDER

/-- The bytes of an area. Those of a bit map are the words that are used for managed pages. -/
def Area.bytes (bank : Bank) (l : Queued) : Area → Set Nat
  | .block p => Set.Ico p (p + maxBlockSize)
  | .pool => Set.Ico (Bank.poolAddr l) (Bank.poolAddr l + bank.poolSize l)
  | .pagesInfo => Set.Ico bank.pagesInfo (bank.pagesInfo + bank.pgInfoSize)
  | .buddyMap order => {x | ∃ page, l.Managed page ∧
      x ∈ Set.Ico (bank.mapWord order page) (bank.mapWord order page + 4)}

/-- The first address of an area. -/
def Area.first (bank : Bank) (l : Queued) : Area → Nat
  | .block p => p
  | .pool => Bank.poolAddr l
  | .pagesInfo => bank.pagesInfo
  | .buddyMap order => bank.buddyMap order

/-- An address behind an area. A bit map is followed by the next, the last by the end of the
bank. -/
def Area.past (bank : Bank) (l : Queued) : Area → Nat
  | .block p => p + maxBlockSize
  | .pool => Bank.poolAddr l + bank.poolSize l
  | .pagesInfo => bank.pagesInfo + bank.pgInfoSize
  | .buddyMap order =>
    if order + 1 < MAX_BUDDY_ORDER then bank.buddyMap (order + 1) else bank.memoryEnd

/-- The areas are apart and inside the bank, each managed page has a descriptor, and the pool has
a page if there is a block. -/
structure Separate (bank : Bank) (l : Queued) : Prop where
  distinct : l.blocks.Nodup
  disjoint : ∀ a b : Area, a.Present l → b.Present l → a ≠ b →
    Disjoint (a.bytes bank l) (b.bytes bank l)
  inside : ∀ a : Area, a.Present l → a.bytes bank l ⊆ Set.Ico bank.memoryStart bank.memoryEnd
  described : ∀ page, l.Managed page →
    0 ≤ bank.getIdByPage page ∧ bank.getIdByPage page < bank.pgCount
  pool : l.blocks ≠ [] → PG_SIZE ≤ bank.poolSize l

/-- A bank of at least 2048 whole pages, and the start of the usable memory. -/
structure Bank.Valid (bank : Bank) : Prop where
  start_aligned : bank.memoryStart % PG_SIZE = 0
  end_aligned : bank.memoryEnd % PG_SIZE = 0
  usable_aligned : bank.usableMemoryStart % PG_SIZE = 0
  large : bank.memoryStart + 2048 * PG_SIZE ≤ bank.memoryEnd
  addressable : bank.memoryEnd < 2 ^ 64
  usable : bank.usableMemoryStart < bank.usableMemoryEnd

/-! ## The loop -/

section Queue

variable {limit turns : Nat} {l l' : Queued}

/-- The blocks that are queued from an address on. -/
def blocksFrom (pg n : Nat) : List Nat :=
  ((List.range n).map fun i => pg + i * maxBlockSize).reverse

theorem blocks_from_succ (pg n : Nat) :
    blocksFrom pg (n + 1) = blocksFrom (pg + maxBlockSize) n ++ [pg] := by
  have shift : ∀ i, pg + (i + 1) * maxBlockSize =
      pg + maxBlockSize + i * maxBlockSize := by
    intro i
    rw [Nat.succ_mul]
    omega
  rw [blocksFrom, blocksFrom, List.range_succ_eq_map, List.map_cons, List.map_map,
    List.reverse_cons, Nat.zero_mul, Nat.add_zero]
  simp only [Function.comp_def, shift]

theorem mem_blocks_from {pg n p : Nat} :
    p ∈ blocksFrom pg n ↔ ∃ i < n, pg + i * maxBlockSize = p := by
  rw [blocksFrom, List.mem_reverse, List.mem_map]
  simp only [List.mem_range]

theorem nodup_blocks_from (pg n : Nat) : (blocksFrom pg n).Nodup := by
  refine List.nodup_reverse.mpr (List.Nodup.map ?_ List.nodup_range)
  intro i j same
  have positive : 0 < maxBlockSize := by decide
  exact Nat.eq_of_mul_eq_mul_right positive (Nat.add_left_cancel same)

/-- The blocks of a run of the loop, and where it stops. -/
theorem queue_blocks_eq (word : limit + maxBlockSize < 2 ^ 64)
    (queued : Bank.queueBlocks limit turns l = .ok l') :
    ∃ n, l' = ⟨blocksFrom l.pg n ++ l.blocks, l.pg + n * maxBlockSize⟩ ∧
      limit ≤ l'.pg ∧ (n ≠ 0 → l'.pg < limit + maxBlockSize) := by
  induction turns generalizing l with
  | zero => cases queued
  | succ turns ih =>
    rw [Bank.queueBlocks] at queued
    by_cases below : l.pg < limit
    · rw [if_pos below, Nat.mod_eq_of_lt (by omega)] at queued
      obtain ⟨n, rfl, reached, before⟩ := ih queued
      have address : l.pg + maxBlockSize + n * maxBlockSize =
          l.pg + (n + 1) * maxBlockSize := by
        rw [Nat.succ_mul]
        omega
      refine ⟨n + 1, ?_, reached, fun _ => ?_⟩
      · rw [blocks_from_succ, List.append_assoc, List.singleton_append, address]
      · by_cases none : n = 0
        · subst none
          dsimp only
          omega
        · exact before none
    · rw [if_neg below, Except.ok.injEq] at queued
      subst queued
      exact ⟨0, by simp [blocksFrom], by omega, fun some => absurd rfl some⟩

/-- The loop ends. -/
theorem queue_blocks_returns (word : limit + maxBlockSize < 2 ^ 64)
    (enough : limit ≤ l.pg + turns * maxBlockSize) :
    ∃ l', Bank.queueBlocks limit (turns + 1) l = .ok l' := by
  induction turns generalizing l with
  | zero => exact ⟨l, by rw [Bank.queueBlocks, if_neg (by omega)]⟩
  | succ turns ih =>
    rw [Bank.queueBlocks]
    by_cases below : l.pg < limit
    · rw [if_pos below]
      refine ih ?_
      rw [Nat.succ_mul] at enough
      dsimp only
      omega
    · exact ⟨l, if_neg below⟩

end Queue

/-! ## The addresses -/

namespace Bank

variable {bank : Bank}

section Addresses

variable (bank) in
theorem usable_end_bounds :
    bank.usableMemoryEnd ≤ bank.pagesInfo ∧ bank.pagesInfo < bank.usableMemoryEnd + PG_SIZE ∧
      bank.usableMemoryEnd % PG_SIZE = 0 := by
  simp only [usableMemoryEnd, roundDownWith, PG_SIZE]
  omega

variable (valid : bank.Valid)
include valid

theorem memory_end_eq : bank.memoryEnd = bank.memoryStart + bank.pgCount * PG_SIZE := by
  have large := valid.large
  have start_aligned := valid.start_aligned
  have end_aligned := valid.end_aligned
  rw [pgCount, word_sub_eq (by omega) valid.addressable]
  simp only [PG_SIZE] at *
  omega

theorem pg_count_ge : 2048 ≤ bank.pgCount := by
  have large := valid.large
  have ends := memory_end_eq valid
  simp only [PG_SIZE] at *
  omega

theorem pg_info_size_eq : bank.pgInfoSize = bank.pgCount * 4 := by
  have ends := memory_end_eq valid
  have word := valid.addressable
  rw [pgInfoSize]
  simp only [PG_SIZE] at ends
  omega

theorem buddy_table_size_eq : bank.buddyTableSize = 511 * bank.pgCount / 512 := by
  have ends := memory_end_eq valid
  have word := valid.addressable
  simp only [buddyTableSize, MAX_BUDDY_ORDER, PG_SIZE] at *
  omega

theorem buddy_map_zero :
    bank.buddyMap 0 + bank.buddyTableSize ≤ bank.memoryEnd ∧
      bank.memoryEnd ≤ bank.buddyMap 0 + bank.buddyTableSize + 15 := by
  have ends := memory_end_eq valid
  have table := buddy_table_size_eq valid
  simp only [PG_SIZE] at ends
  rw [buddyMap, word_sub_eq (by omega) valid.addressable, roundDownWith]
  omega

theorem pages_info_bounds :
    bank.pagesInfo + bank.pgInfoSize ≤ bank.buddyMap 0 ∧
      bank.buddyMap 0 ≤ bank.pagesInfo + bank.pgInfoSize + 15 := by
  have ends := memory_end_eq valid
  have word := valid.addressable
  have table := buddy_table_size_eq valid
  have info := pg_info_size_eq valid
  obtain ⟨below, above⟩ := buddy_map_zero valid
  simp only [PG_SIZE] at ends
  rw [pagesInfo, word_sub_eq (by omega) (by omega), roundDownWith]
  omega

/-- There is room for a block of the largest order in front of the tables. -/
theorem block_before_end : bank.memoryStart + maxBlockSize ≤ bank.usableMemoryEnd := by
  have ends := memory_end_eq valid
  have large := pg_count_ge valid
  have table := buddy_table_size_eq valid
  have info := pg_info_size_eq valid
  obtain ⟨-, map⟩ := buddy_map_zero valid
  obtain ⟨-, descriptors⟩ := pages_info_bounds valid
  obtain ⟨-, usable, -⟩ := usable_end_bounds bank
  simp only [PG_SIZE, maxBlockSize, MAX_BUDDY_ORDER] at *
  omega

/-- The bit maps take at most half a byte for each page. -/
theorem buddy_map_bounds (i : Nat) :
    bank.buddyMap 0 ≤ bank.buddyMap i ∧
      bank.buddyMap i + bank.pgCount / 2 ^ (i + 1) ≤ bank.buddyMap 0 + bank.pgCount / 2 := by
  have word := valid.addressable
  have table := buddy_table_size_eq valid
  have map := buddy_map_zero valid
  induction i with
  | zero => exact ⟨le_rfl, le_rfl⟩
  | succ i ih =>
    have half : bank.pgCount / 2 ^ (i + 1 + 1) = bank.pgCount / 2 ^ (i + 1) / 2 := by
      rw [Nat.pow_succ, Nat.div_div_eq_div_mul]
    have next : bank.buddyMap (i + 1) =
        (bank.buddyMap i + 4 * (bank.pgCount / 2 ^ (i + 1) / 8)) % 2 ^ 64 := rfl
    omega

theorem buddy_map_succ_eq (i : Nat) :
    bank.buddyMap (i + 1) = bank.buddyMap i + 4 * (bank.pgCount / 2 ^ (i + 1) / 8) := by
  have word := valid.addressable
  have table := buddy_table_size_eq valid
  have map := buddy_map_zero valid
  obtain ⟨-, bound⟩ := buddy_map_bounds valid i
  exact Nat.mod_eq_of_lt (by omega)

theorem buddy_map_mono_of_le {i j : Nat} (before : i ≤ j) : bank.buddyMap i ≤ bank.buddyMap j := by
  induction before with
  | refl => exact le_rfl
  | step _ ih =>
    rw [buddy_map_succ_eq valid]
    omega

theorem map_word_before_next {order page : Nat} (below : order + 1 < MAX_BUDDY_ORDER)
    (managed : (page - bank.usableMemoryStart) / PG_SIZE < bank.pgCount) :
    bank.mapWord order page + 4 ≤ bank.buddyMap (order + 1) := by
  have large := pg_count_ge valid
  have pairs : 8 ≤ bank.pgCount / 2 ^ (order + 1) := by
    have power : 2 ^ (order + 1) ≤ 2 ^ 8 := 
      Nat.pow_le_pow_right (by decide) (by simp only [MAX_BUDDY_ORDER] at below; omega)
    exact (Nat.le_div_iff_mul_le (Nat.two_pow_pos _)).mpr (by omega)
  have pair : (page - bank.usableMemoryStart) / PG_SIZE / 2 ^ (order + 1) ≤
      bank.pgCount / 2 ^ (order + 1) := Nat.div_le_div_right managed.le
  rw [mapWord, buddy_map_succ_eq valid]
  omega

theorem map_word_before_end {order page : Nat}
    (managed : (page - bank.usableMemoryStart) / PG_SIZE < bank.pgCount) :
    bank.mapWord order page + 4 ≤ bank.memoryEnd := by
  have large := pg_count_ge valid
  have table := buddy_table_size_eq valid
  obtain ⟨map, -⟩ := buddy_map_zero valid
  obtain ⟨-, bound⟩ := buddy_map_bounds valid order
  have pair : (page - bank.usableMemoryStart) / PG_SIZE / 2 ^ (order + 1) ≤
      bank.pgCount / 2 ^ (order + 1) := Nat.div_le_div_right managed.le
  rw [mapWord]
  omega

end Addresses

/-! ## The areas -/

section Areas

variable (valid : bank.Valid)
include valid

theorem usable_end_lt : bank.usableMemoryEnd < 2 ^ 64 := by
  obtain ⟨usable, -, -⟩ := usable_end_bounds bank
  obtain ⟨descriptors, -⟩ := pages_info_bounds valid
  obtain ⟨map, -⟩ := buddy_map_zero valid
  have word := valid.addressable
  omega

theorem limit_eq : wordSub bank.usableMemoryEnd maxBlockSize =
    bank.usableMemoryEnd - maxBlockSize := by
  have room := block_before_end valid
  have word := usable_end_lt valid
  exact word_sub_eq (by omega) word

/-- The loop ends with blocks that follow each other and a rest in front of the tables. -/
theorem init_memory_eq {turns : Nat} {l : Queued} (ran : bank.initMemory turns = .ok l) :
    ∃ n, l = ⟨blocksFrom bank.usableMemoryStart n,
        bank.usableMemoryStart + n * maxBlockSize⟩ ∧
      bank.usableMemoryStart + n * maxBlockSize < bank.usableMemoryEnd ∧
      bank.usableMemoryEnd ≤
        bank.usableMemoryStart + n * maxBlockSize + maxBlockSize := by
  have room := block_before_end valid
  have word := usable_end_lt valid
  rw [initMemory, limit_eq valid] at ran
  obtain ⟨n, rfl, reached, before⟩ := queue_blocks_eq (by omega) ran
  refine ⟨n, by rw [List.append_nil], ?_, ?_⟩
  · by_cases none : n = 0
    · subst none
      exact valid.usable
    · have stopped := before none
      dsimp only at stopped
      omega
  · dsimp only at reached
    omega

theorem init_memory_returns : ∃ turns l, bank.initMemory turns = .ok l := by
  have room := block_before_end valid
  have word := usable_end_lt valid
  have enough : bank.usableMemoryEnd - maxBlockSize ≤
      bank.usableMemoryStart + bank.usableMemoryEnd * maxBlockSize := by
    simp only [maxBlockSize, MAX_BUDDY_ORDER, PG_SIZE]
    omega
  have returns : ∃ l, queueBlocks (bank.usableMemoryEnd - maxBlockSize)
      (bank.usableMemoryEnd + 1) ⟨[], bank.usableMemoryStart⟩ = .ok l :=
    queue_blocks_returns (by omega) enough
  rw [← limit_eq valid] at returns
  exact ⟨_, returns⟩

section Shape

variable {n : Nat} {l : Queued}
  (shape : l = ⟨blocksFrom bank.usableMemoryStart n,
    bank.usableMemoryStart + n * maxBlockSize⟩)
  (ends : bank.usableMemoryStart + n * maxBlockSize < bank.usableMemoryEnd)
include shape ends

/-- The pool is the rest in front of the tables, and has a page. -/
theorem pool_eq :
    poolAddr l = bank.usableMemoryStart + n * maxBlockSize ∧
      poolAddr l + bank.poolSize l = bank.usableMemoryEnd ∧ PG_SIZE ≤ bank.poolSize l := by
  have word := usable_end_lt valid
  have aligned := valid.usable_aligned
  obtain ⟨-, -, multiple⟩ := usable_end_bounds bank
  have start : poolAddr l = bank.usableMemoryStart + n * maxBlockSize := by
    rw [shape, poolAddr, roundUpWith]
    simp only [maxBlockSize, MAX_BUDDY_ORDER, PG_SIZE] at *
    omega
  rw [poolSize, start, word_sub_eq ends.le word]
  refine ⟨rfl, Nat.add_sub_cancel' ends.le, ?_⟩
  simp only [maxBlockSize, MAX_BUDDY_ORDER, PG_SIZE] at *
  omega

variable (starts : bank.memoryStart ≤ bank.usableMemoryStart)
include starts

theorem managed_bounds {page : Nat} (managed : l.Managed page) :
    bank.usableMemoryStart ≤ page ∧ page < bank.memoryEnd ∧
      (page - bank.usableMemoryStart) / PG_SIZE < bank.pgCount := by
  obtain ⟨p, block, i, inside, rfl⟩ := managed
  rw [shape] at block
  obtain ⟨j, less, rfl⟩ := mem_blocks_from.mp block
  have total := memory_end_eq valid
  obtain ⟨usable, -, -⟩ := usable_end_bounds bank
  obtain ⟨descriptors, -⟩ := pages_info_bounds valid
  obtain ⟨map, -⟩ := buddy_map_zero valid
  simp only [maxBlockSize, MAX_BUDDY_ORDER, PG_SIZE] at *
  omega

/-- Each area lies between two addresses. -/
theorem bytes_subset (a : Area) (present : a.Present l) :
    a.bytes bank l ⊆ Set.Ico (a.first bank l) (a.past bank l) := by
  cases a with
  | block p => exact subset_rfl
  | pool => exact subset_rfl
  | pagesInfo => exact subset_rfl
  | buddyMap order =>
    rintro x ⟨page, managed, low, high⟩
    obtain ⟨-, -, index⟩ := managed_bounds valid shape ends starts managed
    refine ⟨(Nat.le_add_right _ _).trans low, high.trans_le ?_⟩
    rw [Area.past]
    split
    · exact map_word_before_next valid ‹_› index
    · exact map_word_before_end valid index

theorem areas_inside (a : Area) (present : a.Present l) :
    bank.memoryStart ≤ a.first bank l ∧ a.past bank l ≤ bank.memoryEnd := by
  have table := buddy_table_size_eq valid
  obtain ⟨usable, -, -⟩ := usable_end_bounds bank
  obtain ⟨descriptors, -⟩ := pages_info_bounds valid
  obtain ⟨map, -⟩ := buddy_map_zero valid
  obtain ⟨poolStart, poolEnd, -⟩ := pool_eq valid shape ends
  cases a with
  | block p =>
    rw [shape] at present
    obtain ⟨i, less, rfl⟩ := mem_blocks_from.mp present
    simp only [Area.first, Area.past, maxBlockSize, MAX_BUDDY_ORDER, PG_SIZE] at *
    omega
  | pool =>
    rw [Area.first, Area.past]
    omega
  | pagesInfo =>
    rw [Area.first, Area.past]
    omega
  | buddyMap order =>
    have above := (buddy_map_bounds valid order).1
    have next := (buddy_map_bounds valid (order + 1)).2
    generalize bank.pgCount / 2 ^ (order + 1 + 1) = pairs at next
    rw [Area.first, Area.past]
    split <;> omega

omit valid ends starts in
theorem blocks_apart {p q : Nat} (first : p ∈ l.blocks) (second : q ∈ l.blocks) (other : p ≠ q) :
    p + maxBlockSize ≤ q ∨ q + maxBlockSize ≤ p := by
  rw [shape] at first second
  obtain ⟨i, -, rfl⟩ := mem_blocks_from.mp first
  obtain ⟨j, -, rfl⟩ := mem_blocks_from.mp second
  simp only [maxBlockSize, MAX_BUDDY_ORDER, PG_SIZE] at *
  omega

omit valid ends starts in
theorem block_le_pg {p : Nat} (block : p ∈ l.blocks) :
    p + maxBlockSize ≤ bank.usableMemoryStart + n * maxBlockSize := by
  rw [shape] at block
  obtain ⟨i, less, rfl⟩ := mem_blocks_from.mp block
  simp only [maxBlockSize, MAX_BUDDY_ORDER, PG_SIZE] at *
  omega

omit shape ends starts in
theorem maps_apart {i j : Nat} (below : j < MAX_BUDDY_ORDER) (before : i < j) :
    Area.past bank l (.buddyMap i) ≤ bank.buddyMap j := by
  rw [Area.past, if_pos (by omega)]
  exact buddy_map_mono_of_le valid before

omit starts in
/-- Of two areas one ends where the other starts, or before. -/
theorem areas_apart (a b : Area) (present : a.Present l) (present' : b.Present l) (other : a ≠ b) :
    a.past bank l ≤ b.first bank l ∨ b.past bank l ≤ a.first bank l := by
  obtain ⟨poolStart, poolEnd, -⟩ := pool_eq valid shape ends
  obtain ⟨usable, -, -⟩ := usable_end_bounds bank
  obtain ⟨descriptors, -⟩ := pages_info_bounds valid
  have blocks : ∀ p ∈ l.blocks, p + maxBlockSize ≤ poolAddr l := fun p block =>
    poolStart ▸ block_le_pg shape block
  have maps : ∀ i, bank.pagesInfo + bank.pgInfoSize ≤ bank.buddyMap i := fun i =>
    descriptors.trans (buddy_map_bounds valid i).1
  match a, b with
  | .block p, .block q =>
    exact blocks_apart shape present present' fun same => other (congrArg Area.block same)
  | .block p, .pool => exact .inl (blocks p present)
  | .pool, .block q => exact .inr (blocks q present')
  | .block p, .pagesInfo =>
    have below := blocks p present
    exact .inl (by simp only [Area.first, Area.past]; omega)
  | .pagesInfo, .block q =>
    have below := blocks q present'
    exact .inr (by simp only [Area.first, Area.past]; omega)
  | .block p, .buddyMap j =>
    have below := blocks p present
    have above := maps j
    exact .inl (by simp only [Area.first, Area.past]; omega)
  | .buddyMap i, .block q =>
    have below := blocks q present'
    have above := maps i
    exact .inr (by simp only [Area.first, Area.past]; omega)
  | .pool, .pool | .pagesInfo, .pagesInfo => exact absurd rfl other
  | .pool, .pagesInfo => exact .inl (poolEnd.trans_le usable)
  | .pagesInfo, .pool => exact .inr (poolEnd.trans_le usable)
  | .pool, .buddyMap j =>
    have above := maps j
    exact .inl (by simp only [Area.first, Area.past]; omega)
  | .buddyMap i, .pool =>
    have above := maps i
    exact .inr (by simp only [Area.first, Area.past]; omega)
  | .pagesInfo, .buddyMap j => exact .inl (maps j)
  | .buddyMap i, .pagesInfo => exact .inr (maps i)
  | .buddyMap i, .buddyMap j =>
    rcases Nat.lt_trichotomy i j with before | same | after
    · exact .inl (maps_apart valid present' before)
    · exact absurd (by rw [same]) other
    · exact .inr (maps_apart valid present after)

/-- Pages of blocks have descriptors. -/
theorem managed_described {page : Nat} (managed : l.Managed page) :
    0 ≤ bank.getIdByPage page ∧ bank.getIdByPage page < bank.pgCount := by
  obtain ⟨low, high, -⟩ := managed_bounds valid shape ends starts managed
  have total := memory_end_eq valid
  have difference : (page : Int) - bank.memoryStart = (page - bank.memoryStart : Nat) := by omega
  rw [getIdByPage, difference, Int.tdiv_eq_ediv_of_nonneg (Int.natCast_nonneg _)]
  simp only [PG_SIZE] at *
  omega

end Shape

end Areas

end Bank

/-! ## The bank of the boot -/

namespace BootMemory

variable (boot : BootMemory)

/-- What the prober leaves of the memory at boot. -/
def bank : Bank := ⟨boot.memoryStart, boot.memoryEnd, boot.usableMemoryStart⟩

theorem bank_pg_count : boot.bank.pgCount = boot.pgCount := by
  have ends : boot.memoryStart ≤ boot.memoryEnd :=
    (boot.startsBelow.trans boot.image).trans boot.endsAbove
  rw [Bank.pgCount, bank, word_sub_eq ends boot.addressable, pgCount]

/-- The tables of a bank at boot start where no computation wraps. -/
theorem tables_bounds :
    boot.pgCount * PG_SIZE ≤ boot.memoryEnd ∧ 0x80020000 ≤ boot.memoryEnd ∧
      boot.buddyMap0 + boot.buddyTableSize ≤ boot.memoryEnd ∧
      boot.memoryEnd ≤ boot.buddyMap0 + boot.buddyTableSize + 15 := by
  have linked := boot.linked
  have image := boot.image
  have endsAbove := boot.endsAbove
  simp only [pgCount, buddyMap0, roundDownWith, buddyTableSize, MAX_BUDDY_ORDER, PG_SIZE]
  omega

theorem bank_buddy_map (i : Nat) : boot.bank.buddyMap i = boot.buddyMap i := by
  obtain ⟨pages, -, table, -⟩ := boot.tables_bounds
  have word := boot.addressable
  induction i with
  | zero =>
    have size : boot.bank.buddyTableSize = boot.buddyTableSize := by
      rw [Bank.buddyTableSize, bank_pg_count, buddyTableSize]
      simp only [MAX_BUDDY_ORDER, PG_SIZE] at *
      omega
    rw [Bank.buddyMap, size, bank, word_sub_eq (by omega) word]
    rfl
  | succ i ih =>
    have bound := boot.buddy_map_bound (i + 1)
    rw [Bank.buddyMap, ih, bank_pg_count]
    rw [buddy_map_succ] at bound
    simp only [buddyTableSize, MAX_BUDDY_ORDER] at *
    exact Nat.mod_eq_of_lt (by omega)

/-- The descriptors and the end of the usable memory. -/
theorem bank_pages_info : boot.bank.pagesInfo = boot.pagesInfoBase := by
  obtain ⟨pages, linked, table, above⟩ := boot.tables_bounds
  have word := boot.addressable
  have size : boot.bank.pgInfoSize = boot.pgInfoSize := by
    rw [Bank.pgInfoSize, bank_pg_count, pgInfoSize]
    simp only [PG_SIZE] at pages
    omega
  have room : boot.pgInfoSize ≤ boot.buddyMap0 := by
    simp only [buddyTableSize, pgInfoSize, MAX_BUDDY_ORDER, PG_SIZE] at *
    omega
  rw [Bank.pagesInfo, size, bank_buddy_map, buddyMap, word_sub_eq room (by omega), pagesInfoBase]

theorem bank_usable_end : boot.bank.usableMemoryEnd = boot.usableMemoryEnd := by
  rw [Bank.usableMemoryEnd, bank_pages_info, usableMemoryEnd]

/-- On every bank of at least 2048 pages the loop over 64-bit addresses ends, and what it queues is
the free list of the last order that the allocator starts from, with the same maps of buddies. -/
theorem boot_blocks_listed
    (aligned : boot.memoryStart % PG_SIZE = 0 ∧ boot.memoryEnd % PG_SIZE = 0)
    (large : 2048 ≤ boot.pgCount) (usable : boot.usableMemoryStart < boot.usableMemoryEnd)
    (nodes : Nat → BlockList) (words : Words) :
    let m := initMemory boot nodes words
    ∃ turns l, boot.bank.initMemory turns = .ok l ∧ m.Lists (MAX_BUDDY_ORDER - 1) l.blocks ∧
      m.freeCount (MAX_BUDDY_ORDER - 1) = l.blocks.length ∧ m.buddyMap = boot.bank.buddyMap := by
  intro m
  have valid : boot.bank.Valid := by
    refine ⟨aligned.1, aligned.2, ?_, ?_, boot.addressable, boot.bank_usable_end ▸ usable⟩
    all_goals
      simp only [bank, usableMemoryStart, pgCount, roundUpWith, PG_SIZE] at *
      omega
  obtain ⟨turns, l, ran⟩ := Bank.init_memory_returns valid
  obtain ⟨n, rfl, ends, reached⟩ := Bank.init_memory_eq valid ran
  have count : n = boot.blockCount := by
    rw [boot.bank_usable_end] at ends reached
    simp only [bank, blockCount, maxBlockSize, MAX_BUDDY_ORDER, PG_SIZE] at *
    omega
  obtain ⟨threads, -, -, maps, -, start, -⟩ := init_spec boot nodes words
  have address : m.blockAddress (MAX_BUDDY_ORDER - 1) =
      fun i => boot.bank.usableMemoryStart + i * maxBlockSize := by
    funext i
    rw [MemoryInfo.blockAddress, MemoryInfo.pageAddress, start, maxBlockSize, Nat.mul_assoc, bank]
  have blocks : (topBlocks boot.blockCount (MAX_BUDDY_ORDER - 1)).map
      (m.blockAddress (MAX_BUDDY_ORDER - 1)) = blocksFrom boot.bank.usableMemoryStart n := by
    rw [topBlocks, Function.update_self, List.map_reverse, address, count, blocksFrom]
  refine ⟨turns, _, ran, blocks ▸ threads.lists _, ?_, ?_⟩
  · rw [threads.counts, ← blocks, List.length_map]
  · exact maps.trans (funext boot.bank_buddy_map).symm

/-- A bank of 8 MiB. -/
theorem eight_megabytes_listed :
    let boot : BootMemory := ⟨0x80000000, 0x80800000, 0x80020000, 0x80040000,
      by decide, by decide, by decide, by decide, by decide⟩
    let m := initMemory boot (fun _ => ⟨0, 0⟩) fun _ => 0
    ∃ turns l, boot.bank.initMemory turns = .ok l ∧ m.Lists (MAX_BUDDY_ORDER - 1) l.blocks ∧
      m.freeCount (MAX_BUDDY_ORDER - 1) = l.blocks.length ∧ m.buddyMap = boot.bank.buddyMap :=
  boot_blocks_listed _ (by decide) (by decide) (by decide) _ _

end BootMemory

/-- In a bank of at least 2048 pages whose usable memory starts in the bank, `init_memory` ends, and
the areas it makes are apart and inside the bank. -/
theorem boot_areas_separate (bank : Bank) (valid : bank.Valid)
    (starts : bank.memoryStart ≤ bank.usableMemoryStart) :
    ∃ turns l, bank.initMemory turns = .ok l ∧ Separate bank l := by
  obtain ⟨turns, l, ran⟩ := Bank.init_memory_returns valid
  obtain ⟨n, shape, ends, -⟩ := Bank.init_memory_eq valid ran
  refine ⟨turns, l, ran, ?_, ?_, ?_, ?_, ?_⟩
  · rw [shape]
    exact nodup_blocks_from _ _
  · intro a b present present' other
    refine Set.disjoint_of_subset (Bank.bytes_subset valid shape ends starts a present)
      (Bank.bytes_subset valid shape ends starts b present') ?_
    rw [Set.Ico_disjoint_Ico]
    have apart := Bank.areas_apart valid shape ends a b present present' other
    omega
  · intro a present
    obtain ⟨low, high⟩ := Bank.areas_inside valid shape ends starts a present
    exact (Bank.bytes_subset valid shape ends starts a present).trans (Set.Ico_subset_Ico low high)
  · exact fun page managed => Bank.managed_described valid shape ends starts managed
  · exact fun _ => (Bank.pool_eq valid shape ends).2.2

/-- The smallest bank, with a kernel image of a megabyte. -/
theorem eight_megabytes_separate :
    let bank : Bank := ⟨0x80000000, 0x80800000, 0x80100000⟩
    ∃ turns l, bank.initMemory turns = .ok l ∧ Separate bank l :=
  boot_areas_separate ⟨0x80000000, 0x80800000, 0x80100000⟩
    ⟨by decide, by decide, by decide, by decide, by decide, by decide⟩ (by decide)

/-- With usable memory that starts in front of the bank the first block is outside. -/
theorem early_block_outside :
    let bank : Bank := ⟨0x80200000, 0x80A00000, 0x80100000⟩
    bank.Valid ∧ ¬ ∃ turns l, bank.initMemory turns = .ok l ∧ Separate bank l := by
  intro bank
  have valid : bank.Valid := ⟨by decide, by decide, by decide, by decide, by decide, by decide⟩
  refine ⟨valid, ?_⟩
  rintro ⟨turns, l, ran, separate⟩
  obtain ⟨n, rfl, -, reached⟩ := Bank.init_memory_eq valid ran
  have some : n ≠ 0 := by
    rintro rfl
    exact absurd reached (by decide)
  have first : bank.usableMemoryStart ∈ blocksFrom bank.usableMemoryStart n :=
    mem_blocks_from.mpr ⟨0, Nat.pos_of_ne_zero some, by rw [Nat.zero_mul, Nat.add_zero]⟩
  have inside : bank.usableMemoryStart ∈ Set.Ico bank.memoryStart bank.memoryEnd :=
    separate.inside (.block bank.usableMemoryStart) first
      ⟨le_rfl, Nat.lt_add_of_pos_right (by decide)⟩
  exact absurd inside.1 (by decide)

end Mftt
