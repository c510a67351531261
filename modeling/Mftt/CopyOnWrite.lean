import Mftt.Paging

/-!
# Sharing pages between address spaces

`vm_copy` gives a child the frames of its parent, read-only in both; `do_pagefault` gives a
process its own writable page at the first store. The counters in `pages_info` say how many
entries share a frame.
-/

namespace Mftt

abbrev PTE_TYPE_RO : Nat := 1

abbrev PTE_TYPE_RW : Nat := 3

abbrev PTE_TYPE_BIT_W : Nat := 2

/-- `type & ~PTE_TYPE_BIT_W` on a three-bit type. -/
def clearWrite (type : Nat) : Nat := type &&& 5

/-- `type | PTE_TYPE_BIT_W`. -/
def setWrite (type : Nat) : Nat := type ||| PTE_TYPE_BIT_W

/-- The entry without the write permission. -/
def Pte.unwritable (pte : Pte) : Pte := { pte with type := clearWrite pte.type }

/-- The entry of the child after a copy: frame, user and global bit of the entry of the
parent, and its permissions without writing. -/
def Pte.share (cpte pte : Pte) : Pte :=
  { cpte with
    phyPageNumber := pte.phyPageNumber
    v := 1
    u := pte.u
    g := pte.g
    type := clearWrite pte.type }

/-- The entry with the write permission, in a frame. -/
def Pte.grant (pte : Pte) (frame : Nat) : Pte :=
  { pte with phyPageNumber := frame % Pte.FRAMES, type := setWrite pte.type }

/-- `PG_ROUNDUP`. -/
def pgRoundUp (a : Nat) : Nat := pgRoundDown ((a + PG_SIZE - 1) % 2 ^ 64)

section

variable {σ : Type}

/-- `memcpy` of a whole page. -/
def Machine.copyPage (s : Machine σ) (target source : Nat) : Machine σ :=
  { s with word := Function.update s.word target (s.word source) }

variable (A : PageAllocator σ)

/-- `increase_page_ref`: the 16-bit counter one higher. -/
def increasePageRef (pages : σ) (page : Nat) : σ :=
  A.setReference pages page ((A.reference pages page + 1) % 2 ^ 16)

/-- The part of a turn of `vm_copy` after both entries were found. -/
def shareEntry (s : Machine σ) (table index childTable childIndex : Nat) :
    Except Fault (Machine σ) :=
  let pte := s.entry table index
  let cpte := (s.entry childTable childIndex).share pte
  assert (cpte.u = 1) "Must be user area for vm_copy" >>= fun _ =>
    let shared : Machine σ :=
      { s with pages := increasePageRef A s.pages (pte.phyPageNumber * PG_SIZE) }
    .ok ((shared.setEntry childTable childIndex cpte).setEntry table index pte.unwritable)

/-- One turn of the loop of `vm_copy`. -/
def vmCopyTurn (s : Machine σ) (dst src a : Nat) : Except Fault (Machine σ) :=
  walkPages A s src a false >>= fun (slot, s) =>
    match slot with
    | none => kpanic "vm_copy cannot walk pages"
    | some (table, index) =>
      if (s.entry table index).v = 0 then kpanic "vm_copy: source not mapped"
      else if (s.entry table index).type = 0 then kpanic "vm_copy: not a leaf"
      else
        walkPages A s dst a true >>= fun (slot, s) =>
          match slot with
          | none => kpanic "Cannot walk child pte."
          | some (childTable, childIndex) =>
            if (s.entry childTable childIndex).v = 1 then kpanic "Child pte remap while copy."
            else shareEntry A s table index childTable childIndex

/-- The loop of `vm_copy` over the pages below `stop`. -/
def vmCopyLoop (dst src stop : Nat) : Nat → Machine σ → Nat → Except Fault (Machine σ)
  | 0, s, a => if a < stop then .error .unfinished else .ok s
  | turns + 1, s, a =>
    if a < stop then
      vmCopyTurn A s dst src a >>= fun s =>
        vmCopyLoop dst src stop turns s ((a + PG_SIZE) % 2 ^ 64)
    else .ok s

/-- `vm_copy`. -/
def vmCopy (s : Machine σ) (dst src start stop : Nat) : Except Fault (Machine σ) :=
  vmCopyLoop A dst src (pgRoundUp stop) PAGE_TURNS s (pgRoundDown start)

/-- The memory part of `do_fork`: a new directory, then two calls of `vm_copy`, for the image
and for the stack. -/
def forkSpace (s : Machine σ) (sysmaps : List MemSysmap) (parent : Nat)
    (image stack : Nat × Nat) : Except Fault (Option Nat × Machine σ) :=
  allocPageDir A s sysmaps >>= fun (child, s) =>
    match child with
    | none => .ok (none, s)
    | some child =>
      vmCopy A s child parent image.1 image.2 >>= fun s =>
        vmCopy A s child parent stack.1 stack.2 >>= fun s => .ok (some child, s)

/-- What `do_pagefault` reads besides the page tables: `usable_memory_start` and
`usable_memory_end`, the page directory of the current process, and whether the kernel has
opened user memory. -/
structure FaultContext where
  usableStart : Nat
  usableEnd : Nat
  pageDir : Option Nat
  umemAccess : Bool

/-- The part of `do_pagefault` that makes a page writable. -/
def makeWritable (s : Machine σ) (table index : Nat) : Except Fault (Int × Machine σ) :=
  let pte := s.entry table index
  let pa := pte.phyPageNumber * PG_SIZE
  if A.reference s.pages pa = 1 then
    .ok (0, s.setEntry table index (pte.grant pte.phyPageNumber))
  else
    A.pageAlloc s.pages 1 (PAGE_TYPE_INUSE ||| PAGE_TYPE_USER) >>= fun got =>
      if got.1 = 0 then .ok (-2, { s with pages := got.2 })
      else
        let frame := got.1 / PG_SIZE
        let copied := { s with pages := (decreasePageRef A got.2 pa).2 }.copyPage frame
          pte.phyPageNumber
        .ok (0, copied.setEntry table index (pte.grant frame))

/-- `do_pagefault`. The entry is followed before it is compared with NULL. A kernel access
outside the window for user memory only opens the window. -/
def doPagefault (context : FaultContext) (s : Machine σ) (causedVa pde : Nat)
    (fromKernel : Bool) : Except Fault (Int × Machine σ) :=
  match context.pageDir with
  | none => .ok (-5, s)
  | some pageDir =>
    assert (pageDir = pde) "PDE not identical to currently holding process." >>= fun _ =>
      if 0x80000000 ≤ causedVa then .ok (-3, s)
      else
        walkPages A s pde causedVa false >>= fun (slot, s) =>
          match slot with
          | none => .error .nullPointer
          | some (table, index) =>
            let pte := s.entry table index
            let pa := pte.phyPageNumber * PG_SIZE
            if ¬ (context.usableStart ≤ pa ∧ pa < context.usableEnd) then .ok (-3, s)
            else if fromKernel ∧ ¬ context.umemAccess then .ok (0, s)
            else if pte.type &&& PTE_TYPE_BIT_W ≠ 0 then .ok (-4, s)
            else makeWritable A s table index

end

end Mftt
