import Mftt.CopyOnWrite

/-!
# The memory of a process from creation to exit

`init_paging` makes the directory of the kernel, `proc_free` gives the memory of a process
back: it unmaps the image and the stack, and `dealloc_page_dir` then walks the directory and
frees its tables from the bottom up, the root last.
-/

namespace Mftt

section

variable {σ : Type} (A : PageAllocator σ)

/-- `init_paging`: the directory of the kernel, without a look at what `page_alloc` returned. -/
def initPaging (s : Machine σ) : Except Fault (Nat × Machine σ) :=
  A.pageAlloc s.pages 1 PAGE_TYPE_PGTBL >>= fun got =>
    notNull got.1 >>= fun _ =>
      let dir := got.1 / PG_SIZE
      .ok (dir, ({ s with pages := got.2 }.clearPage dir).setEntry dir KERNEL_INDEX kernelEntry)

/-- `page_free` of a table. -/
def freeTable (s : Machine σ) (table : Nat) : Except Fault (Machine σ) :=
  A.pageFree s.pages (table * PG_SIZE) 1 >>= fun freed => .ok { s with pages := freed.2 }

/-- The low four bits of an entry that points to a table: valid and no permission. -/
def isPointer (raw : Nat) : Bool := raw % 16 == 1

/-- `do_pde_free` at level `3 - left`: at level 3 it looks for valid entries, above it frees
the tables below first. -/
def doPdeFree : Nat → Machine σ → Nat → Except Fault (Machine σ)
  | 0, s, pde =>
    (List.range TABLE_ENTRIES).foldlM (fun s index =>
      if (s.entry pde index).v = 1 then kpanic "Valid leaf existed inside pde" else .ok s) s >>=
      fun s => freeTable A s pde
  | left + 1, s, pde =>
    (List.range TABLE_ENTRIES).foldlM (fun s index =>
      if isPointer (s.word pde index) then doPdeFree left s (s.entry pde index).phyPageNumber
      else .ok s) s >>=
      fun s => freeTable A s pde

/-- `dealloc_page_dir`. -/
def deallocPageDir (s : Machine σ) (pageDir : Nat) : Except Fault (Machine σ) :=
  doPdeFree A 3 s pageDir

/-- The fields of `proc_t` that say where its memory is. -/
structure UserLayout where
  imageStart : Nat
  progSize : Nat
  stackTop : Nat
  stackBottom : Nat
  deriving DecidableEq, Repr

/-- The memory part of `proc_free`. -/
def freeSpace (s : Machine σ) (pageDir : Nat) (layout : UserLayout) : Except Fault (Machine σ) :=
  unmapPages A s pageDir layout.imageStart (pgRoundUp layout.progSize / PG_SIZE) true >>= fun s =>
    unmapPages A s pageDir layout.stackTop
      (pgRoundUp ((layout.stackBottom + 2 ^ 64 - layout.stackTop) % 2 ^ 64) / PG_SIZE) true >>=
      fun s => deallocPageDir A s pageDir

end

end Mftt
