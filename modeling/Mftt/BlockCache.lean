import Mathlib.Data.List.Basic
import Mathlib.Logic.Function.Basic
import Mftt.Fault
import Mftt.Slices

/-!
# The block cache

The cache of `dev/buffered_io.c`. Buffers are allocated by `kmalloc` and linked in
a circular list, the most recently asked for first; here the list is the sequence
of their addresses and a separate function gives the buffer at each allocated
address. `bio_cache_get` runs under the spinlock of the cache: it finds a buffer or
makes room, links a new one and counts a reference. Filling a buffer happens later,
under the sleeplock of the buffer.

The devices are byte arrays that `dev_rw` reads and writes in sectors of
`BUFFER_SIZE`; `none` is a device number without a registered function. A reference
count is an `int` that each process raises by at most one, so it does not wrap.
-/

namespace Mftt

abbrev MAX_BIO_CACHE : Nat := 16
abbrev BUFFER_SIZE : Nat := 512

/-- `buffered_io_t`, with the flag of its sleeplock. -/
structure Buffer where
  valid : Bool
  dirty : Bool
  dev : Nat
  addr : Nat
  data : Nat → UInt8
  reference : Int
  locked : Bool

/-- The cache list from its head, the buffers by address, and the devices. -/
structure BioCache where
  list : List Nat
  buffer : Nat → Option Buffer
  disk : Nat → Option (Nat → UInt8)

/-- The buffer at an allocated address. -/
def BioCache.deref (cache : BioCache) (b : Nat) : Except Fault Buffer :=
  match cache.buffer b with
  | some buf => .ok buf
  | none => .error .nullPointer

/-- Store a buffer back at its address. -/
def BioCache.put (cache : BioCache) (b : Nat) (buf : Buffer) : BioCache :=
  { cache with buffer := Function.update cache.buffer b (some buf) }

/-- Whether the buffer at an address is the one for a block. -/
def BioCache.isFor (cache : BioCache) (dev addr b : Nat) : Bool :=
  (cache.buffer b).any fun buf => buf.dev = dev ∧ buf.addr = addr

/-- The first buffer of the list that is for a block. -/
def BioCache.find (cache : BioCache) (dev addr : Nat) : Option Nat :=
  cache.list.find? (cache.isFor dev addr)

/-- Whether nobody refers to the buffer at an address. -/
def BioCache.unused (cache : BioCache) (b : Nat) : Bool :=
  (cache.buffer b).any fun buf => buf.reference = 0

/-- The last buffer of the list that nobody refers to. -/
def BioCache.toDelete (cache : BioCache) : Option Nat :=
  cache.list.reverse.find? cache.unused

/-- `dev_rw(addr, data, BUFFER_SIZE, 1)`. -/
def writeSector (content : Nat → UInt8) (addr : Nat) (data : Nat → UInt8) : Nat → UInt8 :=
  fun k => if addr ≤ k ∧ k < addr + BUFFER_SIZE then data (k - addr) else content k

/-- `dev_rw(addr, data, BUFFER_SIZE, 0)`. -/
def readSector (content : Nat → UInt8) (addr : Nat) (data : Nat → UInt8) : Nat → UInt8 :=
  fun k => if k < BUFFER_SIZE then content (addr + k) else data k

/-- `bio_cache_flush`. -/
def bioCacheFlush (cache : BioCache) (buf : Buffer) : Except Fault BioCache :=
  if buf.locked = false then kpanic "Not holding buffered io lock"
  else
    match cache.disk buf.dev with
    | none => kpanic "No dev rw function to dev %d."
    | some content =>
      if buf.dirty then
        .ok { cache with
          disk := Function.update cache.disk buf.dev
            (some (writeSector content buf.addr buf.data)) }
      else .ok cache

/-- Unlink a buffer and give it to `kfree`. -/
def BioCache.remove (cache : BioCache) (b : Nat) : BioCache :=
  { cache with
    list := cache.list.erase b
    buffer := Function.update cache.buffer b none }

/-- Make room in a full cache, if some buffer is unused. -/
def BioCache.evict (cache : BioCache) : Except Fault BioCache :=
  match cache.toDelete with
  | none => .ok cache
  | some b =>
    cache.deref b >>= fun buf =>
      (if buf.dirty then bioCacheFlush cache buf else .ok cache) >>= fun flushed =>
        .ok (flushed.remove b)

/-- Refer to a buffer of the list and move it to the head. -/
def BioCache.promote (cache : BioCache) (b : Nat) : Except Fault BioCache :=
  cache.deref b >>= fun buf =>
    .ok { cache.put b { buf with reference := buf.reference + 1 } with
      list := b :: cache.list.erase b }

/-- The buffer `bio_cache_get` sets up for a block it did not find. -/
def newBuffer (dev addr : Nat) : Buffer where
  valid := false
  dirty := false
  dev := dev
  addr := addr
  data := fun _ => 0
  reference := 1
  locked := false

/-- Link a new buffer for a block at the head. -/
def BioCache.link (cache : BioCache) (b dev addr : Nat) : BioCache :=
  { cache.put b (newBuffer dev addr) with list := b :: cache.list }

/-- The part of `bio_cache_get` under the lock of the cache. The allocator is given the cache
it runs in, after the eviction. -/
def bioCacheGet (kmalloc : BioCache → Option Nat) (cache : BioCache) (dev addr : Nat) :
    Except Fault (BioCache × Nat) :=
  match cache.find dev addr with
  | some b => cache.promote b >>= fun found => .ok (found, b)
  | none =>
    (if MAX_BIO_CACHE ≤ cache.list.length then cache.evict else .ok cache) >>= fun room =>
      match kmalloc room with
      | none => kpanic "No memory while alloc buffered io."
      | some b => .ok (room.link b dev addr, b)

/-- `kmalloc` returns the address of no buffer that is still allocated. -/
def Fresh (kmalloc : BioCache → Option Nat) : Prop :=
  ∀ cache b, kmalloc cache = some b → cache.buffer b = none

/-- Fill a buffer from its device. -/
def BioCache.fill (cache : BioCache) (dev addr b : Nat) : Except Fault BioCache :=
  match cache.disk dev with
  | none => kpanic "No dev rw function to dev %d."
  | some content =>
    cache.deref b >>= fun buf =>
      .ok (cache.put b { buf with data := readSector content addr buf.data })

/-- `memcpy` out of the data array of a buffer: `len` bytes from `offset` on. -/
def copyData (data : Nat → UInt8) (offset len : Nat) : Except Fault (List UInt8) :=
  if offset + len ≤ BUFFER_SIZE then .ok (Slices.slice data offset len) else .error .outOfBounds

/-- Update the buffer at an address. -/
def BioCache.modify (cache : BioCache) (b : Nat) (change : Buffer → Buffer) :
    Except Fault BioCache :=
  cache.deref b >>= fun buf => .ok (cache.put b (change buf))

end Mftt
