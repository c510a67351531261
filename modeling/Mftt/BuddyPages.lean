import Mftt.BuddyRuns
import Mftt.PageTables

/-!
# The pages that the buddy allocator hands out

The page tables take their frames from `page_alloc`. In every state of a run of the buddy allocator
a request hands out frames that nobody holds, and a request that is not served changes nothing.
-/

namespace Mftt

open DyadicBlocks

/-- The buddy allocator with the counters of `pages_info`. -/
def buddyPages : PageAllocator MemoryInfo where
  pageAlloc := pageAlloc
  pageFree := pageFree
  reference m page := (m.pagesInfo (m.getIdByPage page)).reference
  setReference m page count :=
    let info := { m.pagesInfo (m.getIdByPage page) with reference := count }
    { m with pagesInfo := Function.update m.pagesInfo (m.getIdByPage page) info }

/-- The frames in `live` are pages in use of a bank of `pages` managed pages whose memory lies below
the last frame that an entry of a page table can name. -/
structure BuddyHolds (pages : Nat) (m : MemoryInfo) (live : Set Nat) : Prop where
  aligned : m.usableMemoryStart % PG_SIZE = 0
  addressable : m.usableMemoryEnd ≤ Pte.FRAMES * PG_SIZE
  handed : ∃ free used, Represents m pages free used ∧
    ∀ f ∈ live, ∃ i ∈ used, f = m.usableMemoryStart / PG_SIZE + i

section

variable {pages n attr k j : Nat} {m m' : MemoryInfo} {used live : Set Nat}

theorem frame_of_page (aligned : m.usableMemoryStart % PG_SIZE = 0) (i : Nat) :
    m.pageAddress i / PG_SIZE = m.usableMemoryStart / PG_SIZE + i := by
  simp only [MemoryInfo.pageAddress, PG_SIZE] at *
  omega

/-- The frames of a block that was handed out are those of its pages. -/
theorem frames_of_block (aligned : m.usableMemoryStart % PG_SIZE = 0) (f : Nat) :
    f ∈ blockFrames (m.blockAddress (blockOrder n) j) n ↔
      ∃ i ∈ block (blockOrder n) j, f = m.usableMemoryStart / PG_SIZE + i := by
  have first : m.blockAddress (blockOrder n) j / PG_SIZE =
      m.usableMemoryStart / PG_SIZE + j * 2 ^ blockOrder n := frame_of_page aligned _
  simp only [blockFrames, Set.mem_ofPred_eq, first, mem_block_iff, Nat.add_mul]
  constructor
  · rintro ⟨above, below⟩
    exact ⟨f - m.usableMemoryStart / PG_SIZE, by omega, by omega⟩
  · rintro ⟨i, within, rfl⟩
    omega

/-- A block that `page_alloc` returns holds no frame that was handed out before, and every frame
of it fits into an entry. -/
theorem Allocates.frames (held : BuddyHolds pages m live)
    (inUse : ∀ f ∈ live, ∃ i ∈ used, f = m.usableMemoryStart / PG_SIZE + i)
    (allocated : Allocates m pages used (blockOrder n) attr j m') :
    (∀ f ∈ blockFrames (m.blockAddress (blockOrder n) j) n, f ∉ live ∧ f < Pte.FRAMES) ∧
      BuddyHolds pages m' (live ∪ blockFrames (m.blockAddress (blockOrder n) j) n) := by
  obtain ⟨free', rep'⟩ := allocated.represents
  have start := allocated.changed.usableMemoryStart
  have ends := allocated.changed.usableMemoryEnd
  refine ⟨?_, start ▸ held.aligned, ends ▸ held.addressable, free', _, rep', ?_⟩
  · intro f member
    obtain ⟨i, inBlock, rfl⟩ := (frames_of_block held.aligned f).mp member
    constructor
    · intro handed
      obtain ⟨i', used', same⟩ := inUse _ handed
      exact Set.disjoint_left.mp allocated.fresh (Nat.add_left_cancel same ▸ used') inBlock
    · have inside := rep'.partition.usedInside i (.inr inBlock)
      have room := rep'.layout.room (by omega)
      have addressable := held.addressable
      simp only [MemoryInfo.pageAddress, start, ends, PG_SIZE] at *
      omega
  · intro f member
    rw [start]
    rcases member with member | member
    · obtain ⟨i, used', same⟩ := inUse f member
      exact ⟨i, .inl used', same⟩
    · obtain ⟨i, inBlock, same⟩ := (frames_of_block held.aligned f).mp member
      exact ⟨i, .inr inBlock, same⟩

end

/-- The buddy allocator hands out fresh pages; the counters are no part of its lists. -/
theorem buddy_fresh (pages : Nat) (managed : Set Nat) :
    FreshPages buddyPages managed (BuddyHolds pages) where
  failed := by
    intro m live n attr m' held call
    obtain ⟨free, used, rep, inUse⟩ := held.handed
    rcases page_alloc_spec n attr rep with ⟨returns, -⟩ | ⟨j, m₁, returns, -⟩
    · cases returns.symm.trans call
      exact held
    · have null := congrArg Prod.fst (Except.ok.inj (returns.symm.trans call))
      exact absurd null rep.layout.block_ne_zero
  fresh := by
    intro m live n attr p m' held call served
    obtain ⟨free, used, rep, inUse⟩ := held.handed
    rcases page_alloc_spec n attr rep with ⟨returns, -⟩ | ⟨j, m₁, returns, allocated, -⟩
    · cases returns.symm.trans call
      exact absurd rfl served
    · cases returns.symm.trans call
      refine ⟨?_, allocated.frames held inUse⟩
      have aligned := held.aligned
      simp only [MemoryInfo.blockAddress, MemoryInfo.pageAddress, PG_SIZE] at *
      omega
  counted := by
    rintro m live p count ⟨aligned, addressable, free, used, rep, inUse⟩ -
    exact ⟨aligned, addressable, free, used,
      ⟨⟨⟨rep.layout.base, rep.layout.starts, rep.layout.room⟩, rep.layout.places⟩, rep.partition,
        rep.orders, ⟨rep.threads.lists, rep.threads.counts⟩, rep.bits⟩, inUse⟩

/-- In the states that its invariant describes, its requests return, and one that is not served
leaves lists, bit maps and descriptors as they are. -/
theorem buddy_atomic (pages : Nat) : AtomicPages buddyPages (BuddyHolds pages) where
  returns := by
    rintro m live n attr ⟨-, -, free, used, rep, -⟩
    rcases page_alloc_spec n attr rep with ⟨returns, -⟩ | ⟨j, m₁, returns, -⟩
    · exact ⟨_, returns⟩
    · exact ⟨_, returns⟩
  unchanged := by
    rintro m live n attr m' ⟨-, -, free, used, rep, -⟩ call
    rcases page_alloc_spec n attr rep with ⟨returns, -⟩ | ⟨j, m₁, returns, -⟩
    · cases returns.symm.trans call
      rfl
    · have null := congrArg Prod.fst (Except.ok.inj (returns.symm.trans call))
      exact absurd null rep.layout.block_ne_zero

/-- So it is in every state of a run from boot on a bank that is large enough for its bit maps: the
frames of the pages in use are those that are held. -/
theorem BuddyReachable.holds {boot : BootMemory} {m : MemoryInfo} {used : Set Nat}
    (large : 2048 ≤ boot.pgCount ∨ boot.blockCount = 0)
    (addressable : boot.usableMemoryEnd ≤ Pte.FRAMES * PG_SIZE)
    (reachable : BuddyReachable boot m used) :
    BuddyHolds boot.managedPages m {f | ∃ i ∈ used, f = m.usableMemoryStart / PG_SIZE + i} := by
  obtain ⟨free, rep⟩ := reachable_represents large reachable
  obtain ⟨start, ends⟩ := reachable_bounds large reachable
  refine ⟨?_, ends ▸ addressable, free, used, rep, fun f member => member⟩
  rw [start, BootMemory.usableMemoryStart, roundUpWith, Nat.mul_mod_left]

end Mftt
