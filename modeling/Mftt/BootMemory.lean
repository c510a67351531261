import Mathlib.Logic.Function.Basic
import Mftt.Fault

/-!
# Physical memory at boot

`memory_fdt_prober` finds the bank of memory the kernel was loaded into and
`init_memory` lays it out: the bit maps of the buddy allocator end at the end of
the bank, the array of page descriptors stands below them, and the pages
between the end of the kernel image and that array are the usable ones. The
usable pages are cut into blocks of the largest order as long as a block ends
strictly below the usable end; these blocks are the managed region.

Addresses are natural numbers. The two linker scripts place the kernel at
`0x80020000` or above, and every address computed here lies below the end of the
bank, so no 64-bit computation below wraps around.
-/

namespace Mftt

/-- Bytes in a page. -/
abbrev PG_SIZE : Nat := 4096

/-- Orders of the buddy allocator; the largest block has `2 ^ 8` pages. -/
abbrev MAX_BUDDY_ORDER : Nat := 9

abbrev PAGE_TYPE_USABLE : Nat := 0x001
abbrev PAGE_TYPE_SYSTEM : Nat := 0x004
abbrev PAGE_TYPE_FREE : Nat := 0x010
abbrev PAGE_TYPE_INUSE : Nat := 0x020
abbrev PAGE_TYPE_PGTBL : Nat := 0x040
abbrev PAGE_TYPE_USER : Nat := 0x080

/-- `ROUNDDOWN_WITH(s, a)` for a power of two `s`: clearing the low bits leaves
the largest multiple of `s` that is not above `a`. -/
def roundDownWith (s a : Nat) : Nat := a / s * s

/-- `ROUNDUP_WITH(s, a)` for a power of two `s`. -/
def roundUpWith (s a : Nat) : Nat := (a + s - 1) / s * s

/-- A bank of memory that the prober accepts: the whole kernel image lies in it. -/
structure BootMemory where
  memoryStart : Nat
  memoryEnd : Nat
  kernBase : Nat
  kernEnd : Nat
  linked : 0x80020000 ≤ kernBase
  image : kernBase ≤ kernEnd
  startsBelow : memoryStart ≤ kernBase
  endsAbove : kernEnd ≤ memoryEnd
  addressable : memoryEnd < 2 ^ 64

namespace BootMemory

variable (boot : BootMemory)

/-- First page behind the kernel image. -/
def usableMemoryStart : Nat := roundUpWith PG_SIZE boot.kernEnd

/-- Whole pages of the bank. -/
def pgCount : Nat := (boot.memoryEnd - boot.memoryStart) / PG_SIZE

/-- Bytes set aside for the bit maps of all orders. -/
def buddyTableSize : Nat :=
  (2 ^ MAX_BUDDY_ORDER - 1) * boot.pgCount / 2 ^ MAX_BUDDY_ORDER

/-- `struct page_info` has two 16-bit fields. -/
def pgInfoSize : Nat := boot.pgCount * 4

/-- Address of the order-0 bit map. -/
def buddyMap0 : Nat := roundDownWith 0x10 (boot.memoryEnd - boot.buddyTableSize)

/-- Address of the array of page descriptors. -/
def pagesInfoBase : Nat := roundDownWith 0x10 (boot.buddyMap0 - boot.pgInfoSize)

/-- End of the usable pages. -/
def usableMemoryEnd : Nat := roundDownWith PG_SIZE boot.pagesInfoBase

/-- Address of the bit map of an order. The next map starts `(pg_count >> (i + 1)) / 8`
elements further on; an element is a 32-bit word, so the distance in bytes is
four times that number. -/
def buddyMap : Nat → Nat
  | 0 => boot.buddyMap0
  | order + 1 => buddyMap order + 4 * (boot.pgCount / 2 ^ (order + 1) / 8)

/-- Bytes of a block of the largest order. -/
def maxBlockSize : Nat := 2 ^ (MAX_BUDDY_ORDER - 1) * PG_SIZE

/-- Turns of the loop that puts the largest blocks on their free list: it runs
while `pg < usable_memory_end - max_block_size`. -/
def blockCount : Nat :=
  (boot.usableMemoryEnd - maxBlockSize - boot.usableMemoryStart + maxBlockSize - 1) / maxBlockSize

end BootMemory

end Mftt
