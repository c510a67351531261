import Mftt.KmemLayout

/-!
# The kernel heap

`kmem.c` hands out small blocks of memory from pools. The free blocks of a pool are
the nodes of a tree that is ordered by size; blocks of a size that the tree already
has hang in a list off the block in the tree. A canary stands at both ends of an
allocated block.

`kmem_lock` is taken by both entry points. `kmalloc` does not give it back when it
returns NULL, so that it is part of the state.
-/

namespace Mftt

open ByteMemory

abbrev KMEM_COOKIE : Nat := 0xD1AC

abbrev KMEM_TYPE_FREE : Nat := 0x0001
abbrev KMEM_TYPE_INUSE : Nat := 0x1000
abbrev KMEM_TYPE_HAVE_NEXT : Nat := 0x0002
abbrev KMEM_TYPE_IN_TREE : Nat := 0x0004

abbrev KMEM_BEGIN_CANARY : Nat := 0xBEBEBEBEBEBEBEBE
abbrev KMEM_END_CANARY : Nat := 0xEDEDEDEDEDEDEDED

abbrev KMEM_BLOCK_HEAD_SIZE : Nat := 16
abbrev CANARY_SIZE : Nat := 8

/-- Memory and the static variables. -/
structure KernelHeap where
  bytes : Bytes
  memoryPool : Nat
  kmemLock : Bool

/-- Subtraction of `size_t`. -/
def subWord (a b : Nat) : Nat := (a + 2 ^ 64 - b) % 2 ^ 64

theorem sub_word_of_le {a b : Nat} (le : b ≤ a) (bound : a < 2 ^ 64) : subWord a b = a - b := by
  unfold subWord
  omega

/-- `type & flag`, as a test. -/
def hasFlag (type flag : Nat) : Bool := type &&& flag != 0

/-- `type & ~flag`, in sixteen bits. -/
def clearFlag (type flag : Nat) : Nat := type &&& (0xFFFF ^^^ flag)

/-- The part of `insert_into_pool` for a size that the tree already has: the block is put
behind the one in the tree. -/
def insertBehind (m : Bytes) (pool block : Nat) (existed : NodePtr) : Except Fault Bytes := do
  let eblock := blockOf existed
  assert ((← readBlock m eblock .cookie) = KMEM_COOKIE) "Existed Block invalid."
  assert (hasFlag (← readBlock m eblock .type) KMEM_TYPE_IN_TREE) "Existed Block type mismatch."
  assert ((← readBlock m eblock .pool) = pool) "Existed Block not inside our pool."
  assert ((nodeAt m existed).key = (nodeAt m (nodeOf block)).key) "Exitsed but not same key."
  if hasFlag (← readBlock m eblock .type) KMEM_TYPE_HAVE_NEXT then
    assert ((← readBlock m eblock .nextFree) ≠ 0) "Have next but no next."
    let next ← readBlock m eblock .nextFree
    assert ((← readBlock m next .prevFree) = eblock) "list guard."
    let m ← writeBlock m next .prevFree block
    let m ← writeBlock m block .nextFree next
    let m ← writeBlock m eblock .nextFree block
    let m ← writeBlock m block .prevFree eblock
    writeBlock m block .type ((← readBlock m block .type) ||| KMEM_TYPE_HAVE_NEXT)
  else
    let m ← writeBlock m eblock .nextFree block
    let m ← writeBlock m block .prevFree eblock
    writeBlock m eblock .type ((← readBlock m eblock .type) ||| KMEM_TYPE_HAVE_NEXT)

/-- The part for a size that is new to the tree. -/
def insertAlone (m : Bytes) (block : Nat) : Except Fault Bytes := do
  let m ← writeBlock m block .type ((← readBlock m block .type) ||| KMEM_TYPE_IN_TREE)
  let m ← writeBlock m block .nextFree 0
  writeBlock m block .prevFree 0

/-- The header of a block about to be inserted. -/
def prepareBlock (m : Bytes) (pool block sz : Nat) : Except Fault Bytes := do
  let m := fill m block BLOCK_SIZE 0#8
  let m ← writeBlock m block .cookie KMEM_COOKIE
  let m ← writeBlock m block .type KMEM_TYPE_FREE
  let m ← writeBlock m block .pool pool
  let m ← writeBlock m block .key sz
  writeBlock m block .size sz

/-- `insert_into_pool`. -/
def insertIntoPool (turns : Nat) (m : Bytes) (pool mem sz : Nat) : Except Fault Bytes := do
  assert (pool ≠ 0) "Pool must be a valid pointer."
  assert (mem ≠ 0) "Mem must be a valid pointer (Null protector)."
  assert (BLOCK_SIZE ≤ sz) "Mem size must be larger than minimal block size"
  let m ← prepareBlock m pool mem sz
  let (existed, m) ← onTree m pool (rbInsert turns · (nodeOf mem))
  if existed ≠ .null ∧ existed ≠ nodeOf mem then insertBehind m pool mem existed
  else insertAlone m mem

/-- The checks of `remove_from_pool` on the block before. -/
def checkPrev (m : Bytes) (pool block type prev : Nat) : Except Fault Unit := do
  if !hasFlag type KMEM_TYPE_IN_TREE then
    assert (prev ≠ 0) "Not in tree but no prev"
    assert ((← readBlock m prev .cookie) = KMEM_COOKIE) "Prev block is not valid."
    assert ((← readBlock m prev .pool) = pool) "Prev block is not inside correct pool."
    assert ((← readBlock m prev .nextFree) = block) "Prev block's next is not current block."
  else assert (prev = 0) "In tree but have prev."

/-- The checks on the block behind. -/
def checkNext (m : Bytes) (pool block type next : Nat) : Except Fault Unit := do
  if hasFlag type KMEM_TYPE_HAVE_NEXT then
    assert (next ≠ 0) "Have next but no next."
    assert ((← readBlock m next .cookie) = KMEM_COOKIE) "Next block is not valid."
    assert ((← readBlock m next .pool) = pool) "Next block is not inside correct pool."
    assert ((← readBlock m next .prevFree) = block) "Next block's prev is not current block."
  else assert (next = 0) "Have no next but next not null."

/-- Taking a block of the tree out: its successor in the list replaces it, if there is
one. -/
def detachFromTree (turns : Nat) (m : Bytes) (pool block type next : Nat) : Except Fault Bytes := do
  assert ((nodeAt m (nodeOf block)).key ≠ 0) "In tree but key is 0."
  if hasFlag type KMEM_TYPE_HAVE_NEXT then
    let (_, m) ← onTree m pool (fun t => do
      let t ← rbReplace t (nodeOf block) (nodeOf next)
      pure ((), t))
    let m ← writeBlock m next .prevFree 0
    let m ← writeBlock m next .type ((← readBlock m next .type) ||| KMEM_TYPE_IN_TREE)
    writeBlock m block .type
      (clearFlag (← readBlock m block .type) (KMEM_TYPE_HAVE_NEXT ||| KMEM_TYPE_IN_TREE))
  else
    let (_, m) ← onTree m pool (fun t => do
      let t ← rbRemove turns t (nodeOf block)
      pure ((), t))
    writeBlock m block .type (clearFlag (← readBlock m block .type) KMEM_TYPE_IN_TREE)

/-- Taking a block out of the list that it hangs in. -/
def detachFromList (m : Bytes) (block type prev next : Nat) : Except Fault Bytes := do
  if hasFlag type KMEM_TYPE_HAVE_NEXT then
    let m ← writeBlock m prev .nextFree next
    let m ← writeBlock m next .prevFree prev
    writeBlock m block .type (clearFlag (← readBlock m block .type) KMEM_TYPE_HAVE_NEXT)
  else
    let m ← writeBlock m prev .nextFree 0
    writeBlock m prev .type (clearFlag (← readBlock m prev .type) KMEM_TYPE_HAVE_NEXT)

/-- The two ways of taking a block out. -/
def detach (turns : Nat) (m : Bytes) (pool block type prev next : Nat) : Except Fault Bytes :=
  if hasFlag type KMEM_TYPE_IN_TREE then detachFromTree turns m pool block type next
  else detachFromList m block type prev next

/-- `remove_from_pool`. -/
def removeFromPool (turns : Nat) (m : Bytes) (block : Nat) : Except Fault Bytes := do
  assert ((← readBlock m block .cookie) = KMEM_COOKIE) "Kmem block invalid."
  assert ((← readBlock m block .pool) ≠ 0) "Kmem Block have not inserted into a pool."
  let pool ← readBlock m block .pool
  let prev ← readBlock m block .prevFree
  let type ← readBlock m block .type
  checkPrev m pool block type prev
  let next ← readBlock m block .nextFree
  checkNext m pool block type next
  let m ← detach turns m pool block type prev next
  let m ← writeBlock m block .nextFree 0
  writeBlock m block .prevFree 0

/-- The loop of `get_tree_totalsize` over the list off a block. -/
def listTotalsize : Nat → Bytes → Nat → Nat → Nat → Except Fault Nat
  | 0, _, _, _, _ => .error .unfinished
  | turns + 1, m, block, key, sz => do
    if hasFlag (← readBlock m block .type) KMEM_TYPE_HAVE_NEXT then
      let block ← readBlock m block .nextFree
      let size ← readBlock m block .size
      if size ≠ key then kpanic "Listed kmem block not same size."
      else listTotalsize turns m block key ((sz + size) % 2 ^ 64)
    else pure sz

/-- `get_tree_totalsize`. -/
def getTreeTotalsize : Nat → Bytes → NodePtr → Except Fault Nat
  | 0, _, _ => .error .unfinished
  | turns + 1, m, node =>
    if node = .null then pure 0
    else do
      let n := nodeAt m node
      let sz ← listTotalsize turns m (blockOf node) n.key n.key
      (if n.L ≠ .null then getTreeTotalsize turns m n.L else pure 0) >>= fun left =>
        (if n.R ≠ .null then getTreeTotalsize turns m n.R else pure 0) >>= fun right =>
          pure (((sz + left) % 2 ^ 64 + right) % 2 ^ 64)

/-- `spinlock_acquire(&pool->lock)`. The processor holds a lock that is taken. -/
def acquirePool (m : Bytes) (pool : Nat) : Except Fault Bytes := do
  notNull pool
  if poolField m pool .lock ≠ 0 then kpanic "Acquired." else pure (setPoolField m pool .lock 1)

/-- `spinlock_release(&pool->lock)`. -/
def releasePool (m : Bytes) (pool : Nat) : Except Fault Bytes := do
  notNull pool
  if poolField m pool .lock = 0 then kpanic "Released." else pure (setPoolField m pool .lock 0)

def acquireKmem (h : KernelHeap) : Except Fault KernelHeap :=
  if h.kmemLock then kpanic "Acquired." else pure { h with kmemLock := true }

def releaseKmem (h : KernelHeap) : Except Fault KernelHeap :=
  if h.kmemLock then pure { h with kmemLock := false } else kpanic "Released."

/-- `pool->mem`. -/
def poolMem (pool : Nat) : Nat := pool + POOL_SIZE

/-- `pool->mem + pool->size`. -/
def poolEnd (m : Bytes) (pool : Nat) : Nat := poolMem pool + poolField m pool .size

/-- `attach_to_memory_pool`. `global_pool_lock` is held inside only. -/
def attachToMemoryPool (turns : Nat) (h : KernelHeap) (mem sz : Nat) : Except Fault KernelHeap :=
  if mem &&& 0xF ≠ 0 then pure h
  else if sz ≤ POOL_SIZE then pure h
  else do
    notNull mem
    let m := fill h.bytes mem POOL_SIZE 0#8
    let m := setPoolField m mem .lock 0
    let m ← acquirePool m mem
    let m := setPoolField m mem .size (sz - POOL_SIZE)
    let m := setPoolField m mem .free (poolField m mem .size)
    assert (mem + sz = poolMem mem + poolField m mem .free) "Pool size Not match"
    let m := setPoolField m mem .nextPool h.memoryPool
    let m ← insertIntoPool turns m mem (mem + POOL_SIZE) (poolField m mem .free)
    let m ← releasePool m mem
    pure { h with bytes := m, memoryPool := mem }

/-- The sizes that `kmalloc` works with: that of the payload with its canaries and that
of the block. -/
def kmallocSizes (size : Nat) : Nat × Nat :=
  let size := (size + CANARY_SIZE * 2) % 2 ^ 64
  let size := (size + 15) % 2 ^ 64 / 16 * 16
  let needSize := (size + KMEM_BLOCK_HEAD_SIZE) % 2 ^ 64
  if needSize < BLOCK_SIZE then (BLOCK_SIZE - KMEM_BLOCK_HEAD_SIZE, BLOCK_SIZE)
  else (size, needSize)

/-- The loop of `kmalloc` over the pools. The result is a node of the tree of a pool that
is locked, or NULL. -/
def searchPools (turns : Nat) : Nat → Bytes → Nat → Nat → Except Fault (NodePtr × Nat × Bytes)
  | 0, _, _, _ => .error .unfinished
  | rounds + 1, m, pool, needSize => do
    let node ← rbSearchUpper turns (freeTree m pool) (freeTree m pool).root needSize
    if node = .null then
      if needSize ≤ poolField m pool .free then kpanic "Kmem have free but cannot search tree."
      else
        let m ← releasePool m pool
        let next := poolField m pool .nextPool
        if next = 0 then pure (.null, 0, m)
        else
          let m ← acquirePool m next
          searchPools turns rounds m next needSize
    else pure (node, pool, m)

/-- The part of `kmalloc` that gives back what is left of a block. The result is the
size of the payload with its canaries. -/
def splitBlock (turns : Nat) (m : Bytes) (pool block size needSize : Nat) :
    Except Fault (Nat × Bytes) := do
  let blockSize ← readBlock m block .size
  let remainingSize := subWord blockSize needSize
  if BLOCK_SIZE ≤ remainingSize then
    let m ← writeBlock m block .size needSize
    let newBlock := block + KMEM_BLOCK_HEAD_SIZE + size
    assert (block + needSize = newBlock) "Size not match."
    let m ← insertIntoPool turns m pool newBlock remainingSize
    pure (size, m)
  else pure (blockSize - KMEM_BLOCK_HEAD_SIZE, m)

/-- The canaries of an allocated block, and the bytes between them that are cleared. -/
def setCanaries (m : Bytes) (block size : Nat) : Bytes :=
  let beginCanary := block + KMEM_BLOCK_HEAD_SIZE
  let endCanary := block + KMEM_BLOCK_HEAD_SIZE + size - CANARY_SIZE
  let m := store m beginCanary 8 KMEM_BEGIN_CANARY
  let m := store m endCanary 8 KMEM_END_CANARY
  fill m (beginCanary + CANARY_SIZE) (endCanary - beginCanary - 2 * CANARY_SIZE) 0#8

/-- `rb_validate(pool->free_tree.root)`. -/
def validateTree (turns : Nat) (m : Bytes) (pool : Nat) : Except Fault Unit :=
  rbValidate turns (freeTree m pool) (freeTree m pool).root

/-- The check of the free space of a pool against its tree. -/
def checkTotalsize (turns : Nat) (m : Bytes) (pool : Nat) : Except Fault Unit := do
  let totalSize ← getTreeTotalsize turns m (freeTree m pool).root
  assert (poolField m pool .free = totalSize) "Size not match."

/-- The part of `kmalloc` that takes a block out of a pool. The result is the size of the
payload with its canaries. -/
def takeBlock (turns : Nat) (m : Bytes) (pool block size needSize : Nat) :
    Except Fault (Nat × Bytes) := do
  validateTree turns m pool
  let m ← removeFromPool turns m block
  let (size, m) ← splitBlock turns m pool block size needSize
  let m ← writeBlock m block .type KMEM_TYPE_INUSE
  let blockSize ← readBlock m block .size
  let m := setPoolField m pool .free (subWord (poolField m pool .free) blockSize)
  validateTree turns m pool
  checkTotalsize turns m pool
  let m ← releasePool m pool
  pure (size, m)

/-- `kmalloc`. -/
def kmalloc (turns : Nat) (h : KernelHeap) (size : Nat) : Except Fault (Nat × KernelHeap) := do
  let h ← acquireKmem h
  let (size, needSize) := kmallocSizes size
  assert (BLOCK_SIZE ≤ needSize) "Size guard."
  let m ← acquirePool h.bytes h.memoryPool
  let (node, pool, m) ← searchPools turns turns m h.memoryPool needSize
  if node = .null then pure (0, { h with bytes := m })
  else
    let block := blockOf node
    let (size, m) ← takeBlock turns m pool block size needSize
    let h ← releaseKmem { h with bytes := m }
    pure (block + KMEM_BLOCK_HEAD_SIZE + CANARY_SIZE,
      { h with bytes := setCanaries h.bytes block size })

/-- The loop of `kfree` over the free blocks behind the one given back. -/
def coalesce (turns : Nat) : Nat → Bytes → Nat → Nat → Nat → Except Fault Bytes
  | 0, _, _, _, _ => .error .unfinished
  | rounds + 1, m, pool, block, nextBlock => do
    if hasFlag (← readBlock m nextBlock .type) KMEM_TYPE_FREE then
      assert ((← readBlock m nextBlock .pool) = pool) "Next block pool not match."
      let m ← removeFromPool turns m nextBlock
      let nextSize ← readBlock m nextBlock .size
      let m := setPoolField m pool .free (subWord (poolField m pool .free) nextSize)
      let m ← writeBlock m block .size ((← readBlock m block .size) + nextSize)
      let following := nextBlock + nextSize
      let m := fill m nextBlock BLOCK_SIZE 0xBA#8
      if poolEnd m pool ≤ following then pure m
      else coalesce turns rounds m pool block following
    else pure m

/-- The part of `kfree` that merges the block with free blocks behind it. -/
def mergeNext (turns : Nat) (m : Bytes) (pool block nextBlock : Nat) : Except Fault Bytes := do
  if nextBlock < poolEnd m pool then
    assert ((← readBlock m nextBlock .cookie) = KMEM_COOKIE) "Next Block is not KMem block."
    coalesce turns turns m pool block nextBlock
  else pure m

/-- `kfree`. -/
def kfree (turns : Nat) (h : KernelHeap) (p : Nat) : Except Fault KernelHeap := do
  let h ← acquireKmem h
  let m := h.bytes
  let block := p - KMEM_BLOCK_HEAD_SIZE - CANARY_SIZE
  assert ((← readBlock m block .cookie) = KMEM_COOKIE) "Memory block invalid at kfree."
  assert ((← readBlock m block .type) = KMEM_TYPE_INUSE) "Memory block not inuse."
  let blockSize ← readBlock m block .size
  let beginCanary := block + KMEM_BLOCK_HEAD_SIZE
  let endCanary := block + blockSize - CANARY_SIZE
  assert (load m beginCanary 8 = KMEM_BEGIN_CANARY) "Begin canary dead."
  assert (load m endCanary 8 = KMEM_END_CANARY) "End canary dead."
  let m := fill m beginCanary (endCanary - beginCanary + CANARY_SIZE) 0xFA#8
  let pool ← readBlock m block .pool
  notNull pool
  checkTotalsize turns m pool
  let m ← acquirePool m pool
  validateTree turns m pool
  let m ← mergeNext turns m pool block (block + blockSize)
  let m ← insertIntoPool turns m pool block (← readBlock m block .size)
  let blockSize ← readBlock m block .size
  let m := setPoolField m pool .free ((poolField m pool .free + blockSize) % 2 ^ 64)
  validateTree turns m pool
  checkTotalsize turns m pool
  let m ← releasePool m pool
  releaseKmem { h with bytes := m }

end Mftt
