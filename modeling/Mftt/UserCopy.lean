import Mftt.Fault
import Mathlib.Data.Finset.Basic

/-!
# Kernel blocks and user memory

The blocks of the kernel heap, seen from the routines that allocate and free them, and the
routines of `usercopy.c`. A block is loose until its address is stored in something that the
kernel can reach; then it is held. The blocks that the cache of disk blocks holds are kept in
the order of its list. Where the allocator finds memory is the parameter `Supply`.
When `kmalloc` returns NULL it has not released `kmem_lock`, and the next call of `kmalloc` or
`kfree` on the only hart panics.

What the kernel can read while it copies is the parameter `Memory`. An access that
`do_pagefault` does not resolve ends in `exception_panic`.
-/

namespace Mftt

/-- The first address of kernel memory. -/
abbrev KERNEL_MEM_START : Nat := 0x80000000

/-- The blocks in use, and whether `kmem_lock` was left held. `buffers` is the list of
`bio_cache`, the buffer that was used last first. -/
structure Blocks where
  loose : Finset Nat
  held : Finset Nat
  buffers : List Nat := []
  locked : Bool := false
  deriving DecidableEq

/-- The address that the allocator gives for a size; 0 is NULL. -/
abbrev Supply := Blocks → Nat → Except Fault Nat

namespace Blocks

/-- `kmalloc`. -/
def kmalloc (supply : Supply) (b : Blocks) (size : Nat) : Except Fault (Nat × Blocks) :=
  if b.locked then kpanic "Acquired."
  else
    supply b size >>= fun p =>
      .ok (p, if p = 0 then { b with locked := true } else { b with loose := insert p b.loose })

/-- `kfree`. -/
def kfree (b : Blocks) (p : Nat) : Except Fault Blocks :=
  if b.locked then kpanic "Acquired."
  else
    notNull p >>= fun _ =>
      assert (p ∈ b.loose ∨ p ∈ b.held) "Memory block not inuse." >>= fun _ =>
        .ok { b with loose := b.loose.erase p, held := b.held.erase p }

/-- `kmalloc` of an object that is written to at once. -/
def kmallocWritten (supply : Supply) (b : Blocks) (size : Nat) : Except Fault (Nat × Blocks) :=
  b.kmalloc supply size >>= fun (p, b) => notNull p >>= fun _ => .ok (p, b)

/-- `kmalloc` with an assertion on its result. -/
def kmallocAsserted (supply : Supply) (b : Blocks) (size : Nat) (message : String) :
    Except Fault (Nat × Blocks) :=
  b.kmalloc supply size >>= fun (p, b) => assert (p ≠ 0) message >>= fun _ => .ok (p, b)

/-- A block that a routine fills, uses and frees. -/
def temporary (supply : Supply) (b : Blocks) (size : Nat) : Except Fault Blocks :=
  b.kmallocWritten supply size >>= fun (p, b) => b.kfree p

/-- `list_del` and `kfree` of the buffer at a place of the list. -/
def evict (b : Blocks) (place : Nat) : Except Fault Blocks :=
  if b.locked then kpanic "Acquired." else .ok { b with buffers := b.buffers.eraseIdx place }

/-- A block becomes the first buffer of the list. -/
def enlist (b : Blocks) (p : Nat) : Blocks :=
  { b with loose := b.loose.erase p, buffers := p :: b.buffers }

end Blocks

/-- `sizeof(buffered_io_t)`, and the size of a sector. -/
abbrev BUFFERED_IO_SIZE : Nat := 568
abbrev SECTOR_SIZE : Nat := 512

/-- One access to the cache of disk blocks: to a block that is there, or to one that is made,
after the buffer at the place `dropped` was dropped, and filled from the disk unless all of it
is to be written. -/
inductive CacheAccess where
  | hit
  | miss (dropped : Option Nat) (filled : Bool)

/-- `bio_cache_get` and, if the block is filled, the transfer of `bio_cache_read`. -/
def Blocks.access (supply : Supply) (b : Blocks) : CacheAccess → Except Fault Blocks
  | .hit => .ok b
  | .miss dropped filled =>
    dropped.elim (.ok b) b.evict >>= fun b =>
      b.kmallocAsserted supply BUFFERED_IO_SIZE "No memory while alloc buffered io." >>=
        fun (p, b) =>
          if filled then (b.enlist p).temporary supply SECTOR_SIZE else .ok (b.enlist p)

/-- A number of accesses. -/
def Blocks.accesses (supply : Supply) : List CacheAccess → Blocks → Except Fault Blocks
  | [], b => .ok b
  | first :: rest, b => b.access supply first >>= Blocks.accesses supply rest

/-- What the kernel reads at an address. -/
structure Memory where
  char : Nat → Option Char

namespace Memory

/-- The characters from an address up to the NUL, as `strlen` and `memcpy` read them. `left` is
the number of addresses up to the end of the address space. -/
def string (memory : Memory) : Nat → Nat → Except Fault (List Char)
  | 0, _ => .error .unfinished
  | left + 1, address =>
    match memory.char address with
    | none => kpanic "Load page fault."
    | some ch =>
      if ch = '\x00' then .ok []
      else memory.string left (address + 1) >>= fun rest => .ok (ch :: rest)

/-- `ustrcpy_out`: the block with the copy, and its text. -/
def ustrcpyOut (memory : Memory) (supply : Supply) (b : Blocks) (ustr : Nat) :
    Except Fault (Option (Nat × List Char) × Blocks) :=
  if ustr = 0 then .ok (none, b)
  else
    memory.string (2 ^ 64 - ustr) ustr >>= fun text =>
      assert ((ustr + text.length + 1) % 2 ^ 64 < KERNEL_MEM_START) "user str execeed." >>= fun _ =>
        b.kmalloc supply (text.length + 1) >>= fun (kbuf, b) =>
          .ok (if kbuf = 0 then none else some (kbuf, text), b)

end Memory

end Mftt
