import Mftt.PageMaps

/-!
# Page tables as a partial map

A page directory starts with `alloc_page_dir` and then takes successful `map_pages` and
`unmap_pages` calls, while the rest of the kernel allocates pages and writes memory that is
not one of its tables. In every state of such a run `map_pages` changes the translations of
its pages only, `unmap_pages` erases the translations of its pages only, and an
`unmap_pages` that follows a `map_pages` restores what was there.
-/

namespace Mftt

open RadixTree

section

variable {σ : Type}

variable {A : PageAllocator σ} {managed : Set Nat} {holds : σ → Set Nat → Prop}
  {s s' : Machine σ} {dir : Nat} {owned live : Set Nat}

/-- The states of a directory that `alloc_page_dir` made: successful calls on ranges that
avoid the kernel gigapage, and what the rest of the kernel does elsewhere. Pages that are given
back leave the allocator in a state in which the tables are still handed out. -/
inductive TableRun (A : PageAllocator σ) (holds : σ → Set Nat → Prop) (sysmaps : List MemSysmap)
    (dir : Nat) : Machine σ → Prop where
  | alloc {s s' : Machine σ} {live : Set Nat} (held : holds s.pages live)
      (allocates : allocPageDir A s sysmaps = .ok (some dir, s')) :
      TableRun A holds sysmaps dir s'
  | map {s s' : Machine σ} {va pa size type : Nat} {user global : Bool}
      (run : TableRun A holds sysmaps dir s)
      (range : AddressRange va size) (nonempty : 1 ≤ size)
      (maps : mapPages A s dir va pa size type user global = .ok (0, s')) :
      TableRun A holds sysmaps dir s'
  | unmap {s s' : Machine σ} {va n : Nat} {doFree : Bool} {live : Set Nat}
      (run : TableRun A holds sysmaps dir s)
      (range : AddressRange va (n * PG_SIZE))
      (unmaps : unmapPages A s dir va n doFree = .ok s')
      (held : holds s'.pages live) (kept : tables s' dir ⊆ live) :
      TableRun A holds sysmaps dir s'
  | elsewhere {s s' : Machine σ} {live : Set Nat}
      (run : TableRun A holds sysmaps dir s)
      (held : holds s'.pages live) (kept : tables s dir ⊆ live)
      (words : ∀ f ∈ tables s dir, s'.word f = s.word f) :
      TableRun A holds sysmaps dir s'

/-- In every state of a run the directory is a tree of handed-out tables. -/
theorem TableRun.view (laws : FreshPages A managed holds) {sysmaps : List MemSysmap}
    (avoid : SysmapsAvoid sysmaps) (run : TableRun A holds sysmaps dir s) :
    ∃ live, DirView holds s dir (tables s dir) live := by
  induction run with
  | alloc held allocates =>
    obtain ⟨owned, live, view, -⟩ := alloc_page_dir_spec laws avoid held allocates
    exact ⟨live, view.of_tables⟩
  | map run range nonempty maps ih =>
    obtain ⟨live, view⟩ := ih
    obtain ⟨owned', live', view', -⟩ := map_pages_spec laws view range nonempty maps
    exact ⟨live', view'.of_tables⟩
  | unmap run range unmaps held kept ih =>
    obtain ⟨live, view⟩ := ih
    exact ⟨_, (unmap_pages_spec view.directory range unmaps).directory.of_tables, held, kept⟩
  | @elsewhere s s' live' run held kept words ih =>
    obtain ⟨live, view⟩ := ih
    have view' : DirView holds s' dir (tables s dir) live' :=
      ⟨view.directory.congr words, held, kept⟩
    exact ⟨live', view'.of_tables⟩

/-! ## What a call does to the translations -/

section Calls

variable {va pa size type n : Nat} {user global doFree : Bool}

/-- The translations after `map_pages`: the pages from that of `va` to that of
`va + size - 1` go to consecutive frames from that of `pa`, with the permissions given. -/
def mapped (va pa size type : Nat) (user global : Bool) (before : Nat → Option Translation)
    (va' : Nat) : Option Translation :=
  if va / PG_SIZE ≤ va' / PG_SIZE ∧ va' / PG_SIZE ≤ (va + size - 1) / PG_SIZE then
    some ⟨pa / PG_SIZE + (va' / PG_SIZE - va / PG_SIZE), type % 8, user.toNat, global.toNat⟩
  else before va'

/-- The translations after `unmap_pages`. -/
def unmapped (va n : Nat) (before : Nat → Option Translation) (va' : Nat) :
    Option Translation :=
  if va / PG_SIZE ≤ va' / PG_SIZE ∧ va' / PG_SIZE < va / PG_SIZE + n then none else before va'

/-- The frames of a mapping have numbers that fit the field of an entry. -/
def FramesFit (va pa size : Nat) : Prop :=
  pa / PG_SIZE + ((va + size - 1) / PG_SIZE - va / PG_SIZE) < Pte.FRAMES

theorem round_down_page (a : Nat) : pgRoundDown a / PG_SIZE = a / PG_SIZE :=
  Nat.mul_div_cancel _ (by norm_num)

variable {va' : Nat}

theorem page_outside (range : AddressRange va size)
    (inside : va / PG_SIZE ≤ va' / PG_SIZE ∧ va' / PG_SIZE ≤ (va + size - 1) / PG_SIZE)
    (nonempty : 1 ≤ size) : OutsideKernel va' := by
  apply range_outside range inside.1
  simp only [PG_SIZE] at *
  omega

section

variable (laws : FreshPages A managed holds) (view : DirView holds s dir owned live)
include laws view

theorem map_pages_elsewhere (range : AddressRange va size) (nonempty : 1 ≤ size)
    (maps : mapPages A s dir va pa size type user global = .ok (0, s')) (below : va' < MAXVA)
    (elsewhere : ¬ (va / PG_SIZE ≤ va' / PG_SIZE ∧ va' / PG_SIZE ≤ (va + size - 1) / PG_SIZE)) :
    translate A s' dir va' = translate A s dir va' := by
  obtain ⟨owned', live', view', -, sent⟩ := map_pages_spec laws view range nonempty maps
  by_cases outside : OutsideKernel va'
  · rw [translate_eq A view'.directory below outside, translate_eq A view.directory below outside,
      (sent rfl va' below).2, spanTo, lastPage, round_down_page, round_down_page, if_neg elsewhere]
  · rw [translate_kernel A view'.directory outside, translate_kernel A view.directory outside]

theorem map_pages_translate (range : AddressRange va size) (nonempty : 1 ≤ size)
    (fit : FramesFit va pa size) (maps : mapPages A s dir va pa size type user global = .ok (0, s'))
    (below : va' < MAXVA) :
    translate A s' dir va' = mapped va pa size type user global (translate A s dir) va' := by
  rw [mapped]
  split
  · rename_i inside
    obtain ⟨owned', live', view', -, sent⟩ := map_pages_spec laws view range nonempty maps
    have small : pa / PG_SIZE + (va' / PG_SIZE - va / PG_SIZE) < Pte.FRAMES := by
      rw [FramesFit] at fit
      omega
    rw [translate_eq A view'.directory below (page_outside range inside nonempty),
      (sent rfl va' below).2, spanTo, lastPage, round_down_page, round_down_page, if_pos inside,
      Nat.mod_eq_of_lt small]
  · rename_i elsewhere
    exact map_pages_elsewhere laws view range nonempty maps below elsewhere

omit laws in
theorem unmap_pages_translate (range : AddressRange va (n * PG_SIZE))
    (unmaps : unmapPages A s dir va n doFree = .ok s') (below : va' < MAXVA) :
    translate A s' dir va' = unmapped va n (translate A s dir) va' := by
  have erased := unmap_pages_spec view.directory range unmaps
  have stop : (va + n * PG_SIZE) / PG_SIZE = va / PG_SIZE + n :=
    Nat.add_mul_div_right _ _ (by norm_num)
  by_cases outside : OutsideKernel va'
  · rw [translate_eq A erased.directory below outside, erased.lookups va' below, stop, unmapped]
    split
    · rfl
    · rw [translate_eq A view.directory below outside]
  · rw [translate_kernel A erased.directory outside, unmapped, if_neg,
      translate_kernel A view.directory outside]
    rintro ⟨after, before⟩
    apply outside
    apply range_outside range after
    simp only [PG_SIZE] at *
    omega

theorem map_pages_free (range : AddressRange va size) (nonempty : 1 ≤ size)
    (maps : mapPages A s dir va pa size type user global = .ok (0, s')) (below : va' < MAXVA)
    (inside : va / PG_SIZE ≤ va' / PG_SIZE ∧ va' / PG_SIZE ≤ (va + size - 1) / PG_SIZE) :
    translate A s dir va' = none := by
  obtain ⟨owned', live', view', -, sent⟩ := map_pages_spec laws view range nonempty maps
  rw [translate_eq A view.directory below (page_outside range inside nonempty)]
  apply (sent rfl va' below).1
  · rw [round_down_page]
    exact inside.1
  · rw [lastPage, round_down_page]
    exact inside.2

end

/-- Pages of a nonempty range. -/
def pageCount (va size : Nat) : Nat := (va + size - 1) / PG_SIZE - va / PG_SIZE + 1

theorem range_pages (range : AddressRange va size) (nonempty : 1 ≤ size) :
    AddressRange (pgRoundDown va) (pageCount va size * PG_SIZE) := by
  have below := range.below
  have avoids := range.avoids
  constructor
  · simp only [pgRoundDown, pageCount, PG_SIZE, MAXVA] at *
    omega
  · simp only [pgRoundDown, pageCount, PG_SIZE] at *
    omega

/-- Unmapping what was mapped restores the translations. -/
theorem unmap_map_translate (laws : FreshPages A managed holds)
    (view : DirView holds s dir owned live) (range : AddressRange va size) (nonempty : 1 ≤ size)
    {s₁ : Machine σ} (maps : mapPages A s dir va pa size type user global = .ok (0, s₁))
    (unmaps : unmapPages A s₁ dir (pgRoundDown va) (pageCount va size) doFree = .ok s')
    (below : va' < MAXVA) : translate A s' dir va' = translate A s dir va' := by
  obtain ⟨owned₁, live₁, view₁, -⟩ := map_pages_spec laws view range nonempty maps
  have order : va / PG_SIZE ≤ (va + size - 1) / PG_SIZE := Nat.div_le_div_right (by omega)
  rw [unmap_pages_translate view₁ (range_pages range nonempty) unmaps below, unmapped,
    round_down_page, pageCount]
  split
  · rename_i inside
    exact (map_pages_free laws view range nonempty maps below (by omega)).symm
  · rename_i elsewhere
    exact map_pages_elsewhere laws view range nonempty maps below (by omega)

end Calls

/-- In every state of a run, for every address below `MAXVA`: a successful `map_pages` sends
exactly its pages to the frames from `pa` on, `unmap_pages` erases exactly its pages, and
unmapping what was mapped restores the translations. -/
theorem page_tables_partial_map (laws : FreshPages A managed holds) {sysmaps : List MemSysmap}
    (avoid : SysmapsAvoid sysmaps) (run : TableRun A holds sysmaps dir s) :
    (∀ va pa size type user global s', AddressRange va size → 1 ≤ size → FramesFit va pa size →
      mapPages A s dir va pa size type user global = .ok (0, s') → ∀ va', va' < MAXVA →
        translate A s' dir va' = mapped va pa size type user global (translate A s dir) va') ∧
    (∀ va n doFree s', AddressRange va (n * PG_SIZE) → unmapPages A s dir va n doFree = .ok s' →
      ∀ va', va' < MAXVA → translate A s' dir va' = unmapped va n (translate A s dir) va') ∧
    (∀ va pa size type user global doFree s₁ s', AddressRange va size → 1 ≤ size →
      mapPages A s dir va pa size type user global = .ok (0, s₁) →
      unmapPages A s₁ dir (pgRoundDown va) (pageCount va size) doFree = .ok s' →
      ∀ va', va' < MAXVA → translate A s' dir va' = translate A s dir va') := by
  obtain ⟨live, view⟩ := run.view laws avoid
  refine ⟨?_, ?_, ?_⟩
  · intro va pa size type user global s' range nonempty fit maps va' below
    exact map_pages_translate laws view range nonempty fit maps below
  · intro va n doFree s' range unmaps va' below
    exact unmap_pages_translate view range unmaps below
  · intro va pa size type user global doFree s₁ s' range nonempty maps unmaps va' below
    exact unmap_map_translate laws view range nonempty maps unmaps below

end

/-! ## A concrete directory

An allocator that hands out the frames in order and never takes one back. -/

/-- The state is the next frame to hand out. -/
def bumpPages : PageAllocator Nat where
  pageAlloc next n _ :=
    if next + 2 ^ blockOrder n ≤ Pte.FRAMES then .ok (next * PG_SIZE, next + 2 ^ blockOrder n)
    else .ok (0, next)
  pageFree next _ _ := .ok (0, next)
  reference _ _ := 1
  setReference next _ _ := next

/-- The frames handed out are below the next one. -/
def BumpHolds (next : Nat) (live : Set Nat) : Prop := 0 < next ∧ ∀ f ∈ live, f < next

theorem bump_fresh : FreshPages bumpPages Set.univ BumpHolds where
  failed := by
    intro next live n attr next' held allocates
    dsimp only [bumpPages] at allocates
    split at allocates
    · have none := congrArg Prod.fst (Except.ok.inj allocates)
      have positive := held.1
      simp only [PG_SIZE] at none
      omega
    · cases allocates
      exact held
  fresh := by
    intro next live n attr p next' held allocates allocated
    dsimp only [bumpPages] at allocates
    split at allocates
    · rename_i fits
      cases allocates
      have number : next * PG_SIZE / PG_SIZE = next := Nat.mul_div_cancel _ (by norm_num)
      refine ⟨Nat.mul_mod_left .., ?_, held.1.trans_le (Nat.le_add_right ..), ?_⟩
      · rintro f ⟨lower, upper⟩
        rw [number] at lower upper
        exact ⟨fun inLive => absurd (held.2 f inLive) (by omega), by omega⟩
      · rintro f (inLive | ⟨lower, upper⟩)
        · exact (held.2 f inLive).trans_le (Nat.le_add_right ..)
        · rwa [number] at upper
    · cases allocates
      exact absurd rfl allocated
  counted := by
    intro next live p count held _
    exact held

/-- The value a call returned. -/
def returned {α β : Type} (call : Except Fault (α × β)) : Option α :=
  call.toOption.map Prod.fst

/-- The state a call returned in, or the state before it if it did not return. -/
def landed {α β : Type} (call : Except Fault (α × β)) (before : β) : β :=
  match call with
  | .ok (_, after) => after
  | .error _ => before

theorem eq_landed {α β : Type} {call : Except Fault (α × β)} {value : α} {before : β}
    (returns : returned call = some value) : call = .ok (value, landed call before) := by
  cases call with
  | error fault => cases returns
  | ok result =>
    cases returns
    rfl

/-- Blank memory, with the frames from 1 on to hand out. -/
def blankMachine : Machine Nat := ⟨1, fun _ _ => 0⟩

/-- The directory in frame 1 right after `alloc_page_dir`. -/
def newDirectory : Machine Nat :=
  landed (allocPageDir bumpPages blankMachine []) blankMachine

theorem no_sysmaps : SysmapsAvoid [] := by
  intro sysmap member
  cases member

theorem new_directory_run : TableRun bumpPages BumpHolds [] 1 newDirectory :=
  .alloc (s := blankMachine) (show BumpHolds 1 ∅ from ⟨by decide, fun _ member => member.elim⟩)
    (eq_landed (by decide +kernel))

/-- The directory after its page 0 was mapped to the frame of `pa`. -/
def firstPageMapped (pa : Nat) : Machine Nat :=
  landed (mapPages bumpPages newDirectory 1 0 pa 1 PTE_TYPE_RWX true false) newDirectory

/-- Page 0 goes to frame 16, and erasing it restores the translations. -/
theorem first_page_restored :
    translate bumpPages (firstPageMapped 0x10000) 1 0 = some ⟨16, 7, 1, 0⟩ ∧
    ∃ s', unmapPages bumpPages (firstPageMapped 0x10000) 1 0 1 true = .ok s' ∧
      ∀ va, va < MAXVA → translate bumpPages s' 1 va = translate bumpPages newDirectory 1 va := by
  have maps : mapPages bumpPages newDirectory 1 0 0x10000 1 PTE_TYPE_RWX true false =
      .ok (0, firstPageMapped 0x10000) := eq_landed (by decide +kernel)
  have range : AddressRange 0 1 := ⟨by decide, .inl (by decide)⟩
  obtain ⟨sends, -, restores⟩ :=
    page_tables_partial_map bump_fresh no_sysmaps new_directory_run
  have sent := sends 0 0x10000 1 PTE_TYPE_RWX true false _ range le_rfl
    (show 0x10000 / PG_SIZE + 0 < Pte.FRAMES by decide) maps 0 (by decide)
  refine ⟨sent, ?_⟩
  cases unmaps : unmapPages bumpPages (firstPageMapped 0x10000) 1 0 1 true with
  | error fault =>
    have returns : (unmapPages bumpPages (firstPageMapped 0x10000) 1 0 1 true).isOk = true := by
      decide +kernel
    rw [unmaps] at returns
    cases returns
  | ok s' =>
    exact ⟨s', rfl, restores 0 0x10000 1 _ _ _ true _ s' range le_rfl maps unmaps⟩

/-- A frame number beyond 38 bits is cut: the page goes to frame 0. -/
theorem wide_frame_cut :
    TableRun bumpPages BumpHolds [] 1 newDirectory ∧ AddressRange 0 1 ∧
      mapPages bumpPages newDirectory 1 0 (2 ^ 50) 1 PTE_TYPE_RWX true false =
        .ok (0, firstPageMapped (2 ^ 50)) ∧
      translate bumpPages (firstPageMapped (2 ^ 50)) 1 0 = some ⟨0, 7, 1, 0⟩ ∧
      mapped 0 (2 ^ 50) 1 PTE_TYPE_RWX true false (translate bumpPages newDirectory 1) 0 =
        some ⟨2 ^ 38, 7, 1, 0⟩ := by
  refine ⟨new_directory_run, ⟨by decide, .inl (by decide)⟩, eq_landed (by decide +kernel), ?_, ?_⟩
  · decide +kernel
  · decide +kernel

end Mftt
