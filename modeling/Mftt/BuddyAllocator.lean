import Mftt.BootMemory
import Mftt.Bitset
import Mftt.PowerOfTwo

/-!
# The buddy allocator of pages

`buddy.c` keeps, for each order, a doubly linked list of free blocks threaded
through the first words of the blocks themselves, the number of its nodes, and a
bit map with one bit for each pair of buddies. All of it is the state below; the
words of the bit maps, the list nodes and the page descriptors are the typed
parts of memory that the routines read and write.

`memory_info.lock` is held around both entry points and plays no part here.
-/

namespace Mftt

/-- `struct page_info`; both fields have 16 bits. -/
structure PageInfo where
  type : Nat
  reference : Nat
  deriving DecidableEq, Repr

/-- `block_list`, at the start of a free block. NULL is zero. -/
structure BlockList where
  prev : Nat
  next : Nat
  deriving DecidableEq, Repr

/-- `struct memory_info_t`, with the memory its pointers reach. -/
structure MemoryInfo where
  memoryStart : Nat
  usableMemoryStart : Nat
  usableMemoryEnd : Nat
  pageCount : Nat
  buddyMap : Nat → Nat
  pagesInfo : Nat → PageInfo
  freeList : Nat → Nat
  freeCount : Nat → Nat
  nodes : Nat → BlockList
  words : Words

namespace MemoryInfo

/-- `p->prev`. -/
def prevOf (m : MemoryInfo) (p : Nat) : Nat := (m.nodes p).prev

/-- `p->next`. -/
def nextOf (m : MemoryInfo) (p : Nat) : Nat := (m.nodes p).next

/-- Stores through a `block_list` pointer. -/
def setNext (m : MemoryInfo) (p value : Nat) : MemoryInfo :=
  { m with nodes := Function.update m.nodes p { m.nodes p with next := value } }

def setPrev (m : MemoryInfo) (p value : Nat) : MemoryInfo :=
  { m with nodes := Function.update m.nodes p { m.nodes p with prev := value } }

def setHead (m : MemoryInfo) (order value : Nat) : MemoryInfo :=
  { m with freeList := Function.update m.freeList order value }

def setCount (m : MemoryInfo) (order value : Nat) : MemoryInfo :=
  { m with freeCount := Function.update m.freeCount order value }

section Fields

variable (m : MemoryInfo) (p value order x : Nat)

@[simp] theorem next_of_set_next :
    (m.setNext p value).nextOf x = if x = p then value else m.nextOf x := by
  by_cases same : x = p <;> simp [setNext, nextOf, same]

@[simp] theorem prev_of_set_next : (m.setNext p value).prevOf x = m.prevOf x := by
  by_cases same : x = p <;> simp [setNext, prevOf, same]

@[simp] theorem prev_of_set_prev :
    (m.setPrev p value).prevOf x = if x = p then value else m.prevOf x := by
  by_cases same : x = p <;> simp [setPrev, prevOf, same]

@[simp] theorem next_of_set_prev : (m.setPrev p value).nextOf x = m.nextOf x := by
  by_cases same : x = p <;> simp [setPrev, nextOf, same]

@[simp] theorem next_of_set_head : (m.setHead order value).nextOf x = m.nextOf x := rfl
@[simp] theorem prev_of_set_head : (m.setHead order value).prevOf x = m.prevOf x := rfl
@[simp] theorem next_of_set_count : (m.setCount order value).nextOf x = m.nextOf x := rfl
@[simp] theorem prev_of_set_count : (m.setCount order value).prevOf x = m.prevOf x := rfl
@[simp] theorem head_of_set_next : (m.setNext p value).freeList = m.freeList := rfl
@[simp] theorem head_of_set_prev : (m.setPrev p value).freeList = m.freeList := rfl
@[simp] theorem head_of_set_count : (m.setCount order value).freeList = m.freeList := rfl

@[simp] theorem head_of_set_head :
    (m.setHead order value).freeList x = if x = order then value else m.freeList x := by
  simp [setHead, Function.update_apply]

end Fields

/-- `GET_ID_BY_PAGE`. -/
def getIdByPage (m : MemoryInfo) (page : Nat) : Nat := (page - m.memoryStart) / PG_SIZE

/-- `&pages_info[GET_ID_BY_PAGE(p)]` is overwritten with `info`, for each of the
`count` pages from `p` on. -/
def setPages (m : MemoryInfo) (p count : Nat) (info : PageInfo) : MemoryInfo :=
  match count with
  | 0 => m
  | i + 1 =>
    let m := m.setPages p i info
    { m with pagesInfo := Function.update m.pagesInfo (m.getIdByPage (p + i * PG_SIZE)) info }

end MemoryInfo

/-- The block ends inside the usable pages. -/
abbrev BlockFits (m : MemoryInfo) (p order : Nat) : Prop :=
  m.usableMemoryStart < p + PG_SIZE * 2 ^ order ∧ p + PG_SIZE * 2 ^ order < m.usableMemoryEnd

/-- `remove_from_free_list`. -/
def removeFromFreeList (m : MemoryInfo) (p order : Nat) : Except Fault MemoryInfo := do
  assert (BlockFits m p order) "Block execeeded while remove."
  notNull p
  let prev := m.prevOf p
  let next := m.nextOf p
  let m ← if prev ≠ 0 then
      let m := m.setNext prev next
      pure (if next ≠ 0 then m.setPrev next prev else m)
    else if m.freeList order ≠ p then
      kpanic "Block has no prev but not the first."
    else
      let m := m.setHead order next
      pure (if next ≠ 0 then m.setPrev next 0 else m)
  pure ((m.setNext p 0).setPrev p 0)

/-- `attach_to_free_list` puts the block first. -/
def attachToFreeList (m : MemoryInfo) (p order : Nat) : Except Fault MemoryInfo := do
  assert (BlockFits m p order) "Block execeeded while attach."
  notNull p
  let head := m.freeList order
  let m := m.setNext p head
  let m := if head ≠ 0 then m.setPrev head p else m
  pure ((m.setPrev p 0).setHead order p)

/-- Page number of an address, counted from the first usable page. -/
def pageIdx (m : MemoryInfo) (p : Nat) : Nat := (p - m.usableMemoryStart) / PG_SIZE

/-- `xor_buddy_map`: flip the bit of the pair that the block belongs to and
return its new value. -/
def xorBuddyMap (m : MemoryInfo) (p order : Nat) : Bool × MemoryInfo :=
  let bit := pageIdx m p / 2 ^ (order + 1)
  let m := { m with words := xorBit m.words (m.buddyMap order) bit 1#32 }
  (checkBit m.words (m.buddyMap order) bit, m)

/-- `allocate_pages_of_power_2`. The first argument is the number of orders from
`order` up to the last one; the recursion on larger orders ends where it is zero,
which is the test `order >= MAX_BUDDY_ORDER`. -/
def allocatePagesOfPower2 : Nat → Nat → Nat → MemoryInfo → Except Fault (Nat × MemoryInfo)
  | 0, _, _, m => pure (0, m)
  | above + 1, order, attr, m => do
    let (block, m) ← if m.freeCount order = 0 then do
        let (block, m) ← allocatePagesOfPower2 above (order + 1) 0 m
        if block = 0 then
          pure (0, m)
        else do
          let m ← attachToFreeList m block order
          let m := m.setCount order (m.freeCount order + 1)
          -- the higher half is returned
          let block := block + 2 ^ order * PG_SIZE
          pure (block, (xorBuddyMap m block order).2)
      else do
        let block := m.freeList order
        let m ← removeFromFreeList m block order
        let m := m.setCount order (m.freeCount order - 1)
        pure (block, (xorBuddyMap m block order).2)
    if block = 0 then
      pure (0, m)
    else
      pure (block, m.setPages block (2 ^ order) { type := attr % 2 ^ 16, reference := 1 })

/-- The branch of `free_pages_of_power_2` that does not merge: the block goes on its
list. -/
def listBlock (m : MemoryInfo) (p order : Nat) : Except Fault MemoryInfo := do
  let m ← attachToFreeList m p order
  let m := m.setPages p (2 ^ order) { type := PAGE_TYPE_USABLE ||| PAGE_TYPE_FREE, reference := 0 }
  pure (m.setCount order (m.freeCount order + 1))

/-- `free_pages_of_power_2`. The first argument is the number of orders above
`order`, so that zero means `order + 1 < MAX_BUDDY_ORDER` is false. -/
def freePagesOfPower2 : Nat → Nat → Nat → MemoryInfo → Except Fault (Nat × MemoryInfo)
  | above, order, p, m =>
    if p = 0 then
      pure (1, m)
    else if ¬ (m.usableMemoryStart ≤ p ∧ p < m.usableMemoryEnd) then
      pure (2, m)
    else
      let (buddyBit, m) := xorBuddyMap m p order
      match above, buddyBit with
      | above + 1, false => do
        let pageIdx := pageIdx m p
        let buddy := if pageIdx = pageIdx / 2 ^ (order + 1) * 2 ^ (order + 1)
          then p + 2 ^ order * PG_SIZE else p - 2 ^ order * PG_SIZE
        let m ← removeFromFreeList m buddy order
        let m := m.setCount order (m.freeCount order - 1)
        let (_, m) ← freePagesOfPower2 above (order + 1) (if buddy < p then buddy else p) m
        pure (0, m)
      | _, _ => do
        let m ← listBlock m p order
        pure (0, m)

/-- `page_alloc`. The result is the address of the block, or zero. -/
def pageAlloc (m : MemoryInfo) (pages attr : Nat) : Except Fault (Nat × MemoryInfo) :=
  let order := blockOrder pages
  allocatePagesOfPower2 (MAX_BUDDY_ORDER - order) order attr m

/-- `page_free`. -/
def pageFree (m : MemoryInfo) (p pages : Nat) : Except Fault (Nat × MemoryInfo) :=
  let order := blockOrder pages
  freePagesOfPower2 (MAX_BUDDY_ORDER - 1 - order) order p m

/-- One turn of the loop of `init_memory` that lists the largest blocks. -/
def pushBlock (m : MemoryInfo) (pg : Nat) : MemoryInfo :=
  let top := MAX_BUDDY_ORDER - 1
  let next := m.freeList top
  let m := m.setNext pg next
  let m := m.setPrev pg 0
  let m := if next ≠ 0 then m.setPrev next pg else m
  let m := m.setHead top pg
  m.setCount top (m.freeCount top + 1)

/-- The loop of `init_memory` over the first `turns` blocks. -/
def pushBlocks (m : MemoryInfo) : Nat → MemoryInfo
  | 0 => m
  | turns + 1 =>
    pushBlock (pushBlocks m turns) (m.usableMemoryStart + turns * BootMemory.maxBlockSize)

/-- The state of `init_memory` before its blocks are listed, over a bank whose memory
holds `nodes` and `words` at boot. The bytes from the usable end to the end of the
bank have been cleared. -/
def clearedMemory (boot : BootMemory) (nodes : Nat → BlockList) (words : Words) : MemoryInfo where
  memoryStart := boot.memoryStart
  usableMemoryStart := boot.usableMemoryStart
  usableMemoryEnd := boot.usableMemoryEnd
  pageCount := boot.pgCount
  buddyMap := boot.buddyMap
  pagesInfo := fun _ => { type := 0, reference := 0 }
  freeList := fun _ => 0
  freeCount := fun _ => 0
  nodes := nodes
  words := fun address =>
    if boot.usableMemoryEnd ≤ address ∧ address < boot.memoryEnd then 0#32 else words address

/-- The descriptor that `init_memory` gives to page `i` of the bank. -/
def bootInfo (boot : BootMemory) (i : Nat) : PageInfo :=
  let page := boot.memoryStart + i * PG_SIZE
  { type :=
      if boot.pgCount ≤ i then 0
      else if boot.usableMemoryStart ≤ page ∧ page < boot.usableMemoryEnd then
        PAGE_TYPE_FREE ||| PAGE_TYPE_USABLE
      else PAGE_TYPE_INUSE ||| PAGE_TYPE_SYSTEM
    reference := 0 }

/-- `init_memory`. -/
def initMemory (boot : BootMemory) (nodes : Nat → BlockList) (words : Words) : MemoryInfo :=
  { pushBlocks (clearedMemory boot nodes words) boot.blockCount with pagesInfo := bootInfo boot }

/-- `memory_available`: bytes in blocks on the free lists. -/
def memoryAvailable (m : MemoryInfo) : Nat :=
  ((List.range MAX_BUDDY_ORDER).map (fun order => m.freeCount order * (2 ^ order * PG_SIZE))).sum

end Mftt
