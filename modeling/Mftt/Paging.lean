import Mftt.BootMemory
import Mftt.Fault
import Mftt.PageTableEntry
import Mftt.RadixTree

/-!
# Page tables

The page tables of `memory/paging.c`. Physical memory is a function from frame numbers
and word indices to 64-bit words; a page directory is the number of its frame. The
allocator of pages is a parameter: a type of states with `page_alloc`, `page_free` and
the reference counts of the page descriptors.

Loops that the source ends by an equality of addresses take a bound on their turns;
`walk_pages` panics at `MAXVA`, so a loop over pages makes at most one turn for every
page below it and one more.
-/

namespace Mftt

/-- The allocator of pages and the counters of `pages_info` that the page tables use. -/
structure PageAllocator (σ : Type) where
  pageAlloc : σ → Nat → Nat → Except Fault (Nat × σ)
  pageFree : σ → Nat → Nat → Except Fault (Nat × σ)
  reference : σ → Nat → Nat
  setReference : σ → Nat → Nat → σ

/-- The allocator's state and physical memory by frame and word. -/
structure Machine (σ : Type) where
  pages : σ
  word : Nat → Nat → Nat

/-- One beyond the highest virtual address. -/
abbrev MAXVA : Nat := 2 ^ 38

/-- Entries in a table. -/
abbrev TABLE_ENTRIES : Nat := 512

/-- `PG_ROUNDDOWN`. -/
def pgRoundDown (a : Nat) : Nat := a / PG_SIZE * PG_SIZE

/-- `PX(level, va)`. -/
def px (level va : Nat) : Nat := va / 2 ^ (12 + 9 * level) % TABLE_ENTRIES

section

variable {σ : Type}

/-- `*(pte_st *)&table[index]`. -/
def Machine.entry (s : Machine σ) (table index : Nat) : Pte :=
  Pte.ofRaw (s.word table index)

/-- Store a word. -/
def Machine.setWord (s : Machine σ) (table index raw : Nat) : Machine σ :=
  { s with word := RadixTree.write s.word table index raw }

/-- Store an entry. -/
def Machine.setEntry (s : Machine σ) (table index : Nat) (pte : Pte) : Machine σ :=
  s.setWord table index pte.raw

/-- `memset(page, 0, PG_SIZE)`. -/
def Machine.clearPage (s : Machine σ) (frame : Nat) : Machine σ :=
  { s with word := Function.update s.word frame fun _ => 0 }

variable (A : PageAllocator σ)

/-- One level of `walk_pages`: the table below an entry, allocated where asked for. -/
def walkLevel (s : Machine σ) (table level va : Nat) (alloc : Bool) :
    Except Fault (Option Nat × Machine σ) :=
  let index := px level va
  if (s.entry table index).v = 1 then .ok (some (s.entry table index).phyPageNumber, s)
  else if alloc = false then .ok (none, s)
  else
    A.pageAlloc s.pages 1 PAGE_TYPE_PGTBL >>= fun got =>
      if got.1 = 0 then .ok (none, { s with pages := got.2 })
      else
        let frame := got.1 / PG_SIZE
        let cleared := { s with pages := got.2 }.clearPage frame
        .ok (some frame, cleared.setEntry table index
          { cleared.entry table index with phyPageNumber := frame % Pte.FRAMES, v := 1 })

/-- `walk_pages`: the table and index of the entry for an address. -/
def walkPages (s : Machine σ) (pageDir va : Nat) (alloc : Bool) :
    Except Fault (Option (Nat × Nat) × Machine σ) :=
  if MAXVA ≤ va then kpanic "Virtual address exceeded max virtual address."
  else
    walkLevel A s pageDir 2 va alloc >>= fun (middle, s) =>
      match middle with
      | none => .ok (none, s)
      | some table =>
        walkLevel A s table 1 va alloc >>= fun (low, s) =>
          .ok (low.map fun table => (table, px 0 va), s)

/-- One turn of the loop of `map_pages`: its return value when the loop ends there. -/
def mapTurn (s : Machine σ) (pageDir a pa type : Nat) (user global : Bool) :
    Except Fault (Int × Machine σ) :=
  walkPages A s pageDir a true >>= fun (slot, s) =>
    match slot with
    | none => .ok (-1, s)
    | some (table, index) =>
      if (s.entry table index).v = 1 then .ok (-2, s)
      else
        .ok (0, s.setEntry table index
          { s.entry table index with
            phyPageNumber := pa / PG_SIZE % Pte.FRAMES
            type := type % 8
            v := 1
            u := user.toNat
            g := global.toNat })

/-- The loop of `map_pages` from the page at `a` to the page at `last`. -/
def mapLoop (pageDir last type : Nat) (user global : Bool) :
    Nat → Machine σ → Nat → Nat → Except Fault (Int × Machine σ)
  | 0, _, _, _ => .error .unfinished
  | turns + 1, s, a, pa =>
    mapTurn A s pageDir a pa type user global >>= fun (result, s) =>
      if result ≠ 0 then .ok (result, s)
      else if a = last then .ok (0, s)
      else mapLoop pageDir last type user global turns s ((a + PG_SIZE) % 2 ^ 64)
        ((pa + PG_SIZE) % 2 ^ 64)

/-- Turns enough for a loop over pages. -/
abbrev PAGE_TURNS : Nat := MAXVA / PG_SIZE + 1

/-- `map_pages`. -/
def mapPages (s : Machine σ) (pageDir va pa size type : Nat) (user global : Bool) :
    Except Fault (Int × Machine σ) :=
  mapLoop A pageDir (pgRoundDown ((va + size + 2 ^ 64 - 1) % 2 ^ 64)) type user global PAGE_TURNS
    s (pgRoundDown va) pa

/-- `decrease_page_ref`: the new value of the 16-bit counter. -/
def decreasePageRef (pages : σ) (page : Nat) : Nat × σ :=
  let reference := (A.reference pages page + 2 ^ 16 - 1) % 2 ^ 16
  (reference, A.setReference pages page reference)

/-- Drop one reference of a page and give it back when it was the last. -/
def dropPage (pages : σ) (page : Nat) (doFree : Bool) : Except Fault σ :=
  let dropped := decreasePageRef A pages page
  if doFree && dropped.1 == 0 then
    A.pageFree dropped.2 page 1 >>= fun freed => .ok freed.2
  else .ok dropped.2

/-- One turn of the loop of `unmap_pages`. -/
def unmapTurn (s : Machine σ) (pageDir a : Nat) (doFree : Bool) : Except Fault (Machine σ) :=
  walkPages A s pageDir a false >>= fun (slot, s) =>
    match slot with
    | none => kpanic "vmunmap: walk"
    | some (table, index) =>
      let pte := s.entry table index
      if pte.v = 0 then kpanic "vmunmap: not mapped"
      else if pte.type = 0 then kpanic "vmunmap: not a leaf"
      else
        dropPage A s.pages (pte.phyPageNumber * PG_SIZE) doFree >>= fun pages =>
          .ok ({ s with pages := pages }.setWord table index 0)

/-- The loop of `unmap_pages` over the pages below `stop`. -/
def unmapLoop (pageDir stop : Nat) (doFree : Bool) :
    Nat → Machine σ → Nat → Except Fault (Machine σ)
  | 0, s, a => if a < stop then .error .unfinished else .ok s
  | turns + 1, s, a =>
    if a < stop then
      unmapTurn A s pageDir a doFree >>= fun s =>
        unmapLoop pageDir stop doFree turns s ((a + PG_SIZE) % 2 ^ 64)
    else .ok s

/-- `unmap_pages`. -/
def unmapPages (s : Machine σ) (pageDir va size : Nat) (doFree : Bool) :
    Except Fault (Machine σ) :=
  if va % PG_SIZE ≠ 0 then kpanic "vmunmap: not aligned"
  else unmapLoop A pageDir ((va + size * PG_SIZE) % 2 ^ 64) doFree PAGE_TURNS s va

/-- `struct mem_sysmap`, without its list link. -/
structure MemSysmap where
  va : Nat
  pa : Nat
  size : Nat
  type : Nat

abbrev PTE_TYPE_RWX : Nat := 7

/-- Index of the kernel gigapage in a page directory. -/
abbrev KERNEL_INDEX : Nat := 2

/-- The entry of the kernel gigapage, over a cleared word. -/
def kernelEntry : Pte where
  v := 1
  type := PTE_TYPE_RWX
  u := 0
  g := 1
  a := 0
  d := 0
  reserved1 := 0
  phyPageNumber := 0x80000000 / PG_SIZE
  reserved2 := 0

/-- The loop of `alloc_page_dir` over the system mappings; their results are not looked at. -/
def mapSysmaps (pageDir : Nat) : List MemSysmap → Machine σ → Except Fault (Machine σ)
  | [], s => .ok s
  | sysmap :: rest, s =>
    mapPages A s pageDir sysmap.va sysmap.pa sysmap.size sysmap.type false true >>= fun mapped =>
      mapSysmaps pageDir rest mapped.2

/-- `alloc_page_dir`. -/
def allocPageDir (s : Machine σ) (sysmaps : List MemSysmap) :
    Except Fault (Option Nat × Machine σ) :=
  A.pageAlloc s.pages 1 PAGE_TYPE_PGTBL >>= fun got =>
    if got.1 = 0 then .ok (none, { s with pages := got.2 })
    else
      let pageDir := got.1 / PG_SIZE
      let cleared := { s with pages := got.2 }.clearPage pageDir
      mapSysmaps A pageDir sysmaps (cleared.setEntry pageDir KERNEL_INDEX kernelEntry) >>=
        fun s => .ok (some pageDir, s)

end

end Mftt
