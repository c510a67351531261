import Mftt.BlockCacheRuns

/-!
# Reading and writing a buffered device

`bio_read` and `bio_write` of `dev/buffered_io.c`, the operations of the buffered device
file, run by one process while no other one has a buffer. Both go from the block of the
offset to the block of the end, both included, and compute for each the position in the
block and the number of bytes. Sizes and offsets are `size_t`, so sums are taken modulo
`2 ^ 64`; a copy that leaves the data array of a buffer is a fault.
-/

namespace Mftt

section Operations

variable (kmalloc : BioCache → Option Nat)

/-- `sleeplock_acquire` of a buffer; waiting for a sleeplock that nobody gives back never ends. -/
def BioCache.acquire (cache : BioCache) (b : Nat) : Except Fault BioCache :=
  cache.lockBuffer b >>= fun
    | some locked => .ok locked
    | none => .error .unfinished

/-- `bio_cache_get` with the sleeplock of the buffer it returns. -/
def bioCacheGetLocked (cache : BioCache) (dev addr : Nat) : Except Fault (BioCache × Nat) :=
  bioCacheGet kmalloc cache dev addr >>= fun (cache, b) =>
    cache.acquire b >>= fun cache => .ok (cache, b)

/-- `bio_cache_read`. -/
def bioCacheRead (cache : BioCache) (dev addr : Nat) : Except Fault (BioCache × Nat) :=
  assert (addr % BUFFER_SIZE = 0) "Addr must be aligned to buffer size." >>= fun _ =>
    bioCacheGetLocked kmalloc cache dev addr >>= fun (cache, b) =>
      cache.deref b >>= fun buf =>
        if buf.valid then .ok (cache, b)
        else
          cache.fill dev addr b >>= fun cache =>
            cache.modify b (fun buf => { buf with valid := true }) >>= fun cache => .ok (cache, b)

/-- `bio_cache_release`. -/
def bioCacheRelease (cache : BioCache) (b : Nat) : Except Fault BioCache :=
  cache.deref b >>= fun buf =>
    if buf.locked = false then kpanic "Not holding buffered io lock"
    else
      cache.modify b (fun buf => { buf with locked := false }) >>= fun cache =>
        cache.modify b (fun buf => { buf with reference := buf.reference - 1 })

/-- The blocks of a request: the first one and the position in it, the last one and the number of
bytes taken from it. -/
structure Extent where
  start : Nat
  firstBlockOffset : Nat
  stop : Nat
  lastBlockLen : Nat
  deriving DecidableEq, Repr

/-- `ROUNDDOWN_WITH(BUFFER_SIZE, x)`. -/
def roundDownBlock (x : Nat) : Nat := x - x % BUFFER_SIZE

/-- The variables that `bio_read` and `bio_write` set up alike. -/
def extentOf (offset len : Nat) : Extent where
  start := roundDownBlock offset
  firstBlockOffset := offset % BUFFER_SIZE
  stop := roundDownBlock ((roundDownBlock offset + offset % BUFFER_SIZE + len) % 2 ^ 64)
  lastBlockLen := len % BUFFER_SIZE

/-- `c_offset`. -/
def Extent.offsetAt (e : Extent) (p : Nat) : Nat := if p = e.start then e.firstBlockOffset else 0

/-- `c_len`. -/
def Extent.lenAt (e : Extent) (p : Nat) : Nat := if p = e.stop then e.lastBlockLen else BUFFER_SIZE

/-- One turn of the loop of `bio_read`. -/
def bioReadBlock (e : Extent) (dev p : Nat) (cache : BioCache) :
    Except Fault (BioCache × List UInt8) :=
  bioCacheRead kmalloc cache dev p >>= fun (cache, b) =>
    cache.deref b >>= fun buf =>
      copyData buf.data (e.offsetAt p) (e.lenAt p) >>= fun bytes =>
        bioCacheRelease cache b >>= fun cache => .ok (cache, bytes)

/-- `for (size_t p = start; p <= end; p += BUFFER_SIZE)`, with the bytes copied so far. -/
def bioReadLoop (e : Extent) (dev : Nat) :
    Nat → Nat → BioCache → List UInt8 → Except Fault (BioCache × List UInt8)
  | 0, _, _, _ => .error .unfinished
  | turns + 1, p, cache, copied =>
    if p ≤ e.stop then
      bioReadBlock kmalloc e dev p cache >>= fun (cache, bytes) =>
        bioReadLoop e dev turns ((p + BUFFER_SIZE) % 2 ^ 64) cache (copied ++ bytes)
    else .ok (cache, copied)

/-- `bio_read`: the cache afterwards and the bytes copied to the caller's buffer. -/
def bioRead (turns : Nat) (cache : BioCache) (dev offset len : Nat) :
    Except Fault (BioCache × List UInt8) :=
  bioReadLoop kmalloc (extentOf offset len) dev turns (extentOf offset len).start cache []

/-- `memcpy` into the data array of a buffer. -/
def pasteData (data : Nat → UInt8) (offset : Nat) (bytes : List UInt8) :
    Except Fault (Nat → UInt8) :=
  if offset + bytes.length ≤ BUFFER_SIZE then
    .ok (Slices.overwrite data offset bytes)
  else .error .outOfBounds

/-- One turn of the loop of `bio_write`; `source` is what the caller's buffer holds from `pbuffer`
on. A whole block is not read before it is written. -/
def bioWriteBlock (e : Extent) (dev p : Nat) (cache : BioCache) (source : List UInt8) :
    Except Fault (BioCache × List UInt8) :=
  (if e.offsetAt p ≠ 0 ∨ e.lenAt p ≠ BUFFER_SIZE then bioCacheRead kmalloc cache dev p
    else bioCacheGetLocked kmalloc cache dev p) >>= fun (cache, b) =>
    cache.deref b >>= fun buf =>
      pasteData buf.data (e.offsetAt p) (source.take (e.lenAt p)) >>= fun data =>
        cache.modify b (fun buf => { buf with data := data }) >>= fun cache =>
          bioCacheRelease cache b >>= fun cache => .ok (cache, source.drop (e.lenAt p))

/-- The loop of `bio_write`. -/
def bioWriteLoop (e : Extent) (dev : Nat) :
    Nat → Nat → BioCache → List UInt8 → Except Fault BioCache
  | 0, _, _, _ => .error .unfinished
  | turns + 1, p, cache, source =>
    if p ≤ e.stop then
      bioWriteBlock kmalloc e dev p cache source >>= fun (cache, source) =>
        bioWriteLoop e dev turns ((p + BUFFER_SIZE) % 2 ^ 64) cache source
    else .ok cache

/-- `bio_write` of the given bytes. -/
def bioWrite (turns : Nat) (cache : BioCache) (dev offset : Nat) (bytes : List UInt8) :
    Except Fault BioCache :=
  bioWriteLoop kmalloc (extentOf offset bytes.length) dev turns
    (extentOf offset bytes.length).start cache bytes

end Operations

end Mftt
