import Mftt.PageTables

/-!
# Mapping and unmapping pages

The translation of an address is what `walk_pages` finds for it. `map_pages` sends the
pages of a range to consecutive frames and changes no other translation; `unmap_pages`
erases the translations of its pages and changes no other. Both keep the directory a tree
of pages the allocator has handed out, so this holds in every state that a directory
reaches from `alloc_page_dir` through such calls.
-/

namespace Mftt

open RadixTree

/-- Where a page goes, and with which permissions. -/
structure Translation where
  frame : Nat
  type : Nat
  u : Nat
  g : Nat
  deriving DecidableEq, Repr

/-- The translation a leaf entry stands for. -/
def Pte.translation (pte : Pte) : Translation :=
  ⟨pte.phyPageNumber, pte.type, pte.u, pte.g⟩

section

variable {σ : Type}

/-- Pages in a gigapage. -/
abbrev GIGAPAGE : Nat := 2 ^ 18

/-- The translation a leaf entry of the root stands for at an address of its gigapage. -/
def Pte.gigapage (pte : Pte) (va : Nat) : Translation :=
  { pte.translation with frame := pte.phyPageNumber + va / PG_SIZE % GIGAPAGE }

/-- The translation of an address: the entry `walk_pages` finds without allocating, if valid.
A leaf of the root, which the function would follow as a table, maps its gigapage. -/
def translate (A : PageAllocator σ) (s : Machine σ) (dir va : Nat) : Option Translation :=
  let root := s.entry dir (px 2 va)
  if root.v = 1 ∧ root.type ≠ 0 then some (root.gigapage va)
  else
    match walkPages A s dir va false with
    | .ok (some (table, index), _) =>
      if (s.entry table index).v = 1 then some (s.entry table index).translation else none
    | _ => none

variable {A : PageAllocator σ} {managed : Set Nat} {holds : σ → Set Nat → Prop} {s s' : Machine σ}
  {dir va : Nat} {owned live : Set Nat} {doFree : Bool} {sysmaps : List MemSysmap}

/-- Below `MAXVA` and outside the kernel gigapage the translation is read from the tree. -/
theorem translate_eq (A : PageAllocator σ) (directory : Directory s dir owned) (below : va < MAXVA)
    (outside : OutsideKernel va) :
    translate A s dir va = (lookup s dir va).map Pte.translation := by
  have pointer : (s.entry dir (px 2 va)).type = 0 :=
    directory.pointers [] dir (px 2 va) (by simp) rfl fun same =>
      outside (List.singleton_inj.mp same)
  rw [translate, if_neg fun leaf => leaf.2 pointer,
    walk_pages_read A directory below outside, lookup]
  cases follow tableBelow s.word [px 2 va, px 1 va] dir with
  | none => rfl
  | some table =>
    rw [Option.bind_some, Option.map_some]
    dsimp only
    split <;> rfl

theorem translate_kernel (A : PageAllocator σ) (directory : Directory s dir owned)
    (inside : ¬ OutsideKernel va) : translate A s dir va = some (kernelEntry.gigapage va) := by
  rw [translate, not_not.mp inside, directory.kernel]
  exact if_pos (by decide)

/-- Addresses of one page have one translation. -/
theorem lookup_page {va' : Nat} (below : va < MAXVA) (below' : va' < MAXVA)
    (same : va / PG_SIZE = va' / PG_SIZE) : lookup s dir va = lookup s dir va' := by
  obtain ⟨two, one, zero⟩ := (px_eq_iff below below').mpr same
  rw [lookup, lookup, two, one, zero]

/-! ## `map_pages` -/

variable {a pa type : Nat} {user global : Bool} {result : Int}

/-- The translation `map_pages` gives to the page that gets the physical address `pa`. -/
def mappedTo (pa type : Nat) (user global : Bool) : Translation :=
  ⟨pa / PG_SIZE % Pte.FRAMES, type % 8, user.toNat, global.toNat⟩

/-- A turn of the loop of `map_pages` that succeeds adds one translation. -/
theorem map_turn_spec (laws : FreshPages A managed holds) (view : DirView holds s dir owned live)
    (below : a < MAXVA) (outside : OutsideKernel a)
    (maps : mapTurn A s dir a pa type user global = .ok (result, s')) :
    ∃ owned' live', DirView holds s' dir owned' live' ∧ Grows s s' owned live owned' live' ∧
      (result = 0 → lookup s dir a = none ∧
        ∀ va, va < MAXVA → (lookup s' dir va).map Pte.translation =
          if va / PG_SIZE = a / PG_SIZE then some (mappedTo pa type user global)
          else (lookup s dir va).map Pte.translation) := by
  obtain ⟨⟨slot, s₁⟩, walks, maps⟩ := bind_eq_ok.mp maps
  obtain ⟨owned₁, live₁, view₁, grows, lookups, reaches⟩ :=
    walk_pages_spec laws view outside walks
  cases slot with
  | none =>
    cases maps
    exact ⟨owned₁, live₁, view₁, grows, fun zero => absurd zero (by decide)⟩
  | some slot =>
    obtain ⟨table, index⟩ := slot
    obtain ⟨rfl, met⟩ := reaches table index rfl
    dsimp only at maps
    split at maps
    · cases maps
      exact ⟨owned₁, live₁, view₁, grows, fun zero => absurd zero (by decide)⟩
    · rename_i empty
      cases maps
      have inside := view₁.directory.tree.owns _ table (by simp) met
      refine ⟨owned₁, live₁, ⟨view₁.directory.write_leaf met, view₁.pages, view₁.included⟩,
        ⟨grows.tables, grows.handed, grows.fresh, ?_⟩, fun _ => ⟨?_, ?_⟩⟩
      · intro f notOwned
        have other : f ≠ table := by
          rintro rfl
          exact notOwned inside
        rw [← grows.words f notOwned, Machine.setEntry, set_word_word, write,
          Function.update_of_ne other]
      · rw [← lookups a, lookup, met, Option.bind_some, if_neg empty]
      · intro va belowVa
        have fits : ({ s₁.entry table (px 0 a) with
            phyPageNumber := pa / PG_SIZE % Pte.FRAMES
            type := type % 8
            v := 1
            u := user.toNat
            g := global.toNat } : Pte).Fits :=
          { entry_fits s₁ table (px 0 a) with
            v := by simp
            type := Nat.mod_lt _ (by norm_num)
            u := by cases user <;> simp
            g := by cases global <;> simp
            phyPageNumber := Nat.mod_lt _ (by norm_num) }
        rw [Machine.setEntry, lookup_write_leaf view₁.directory below met belowVa,
          Pte.of_raw_raw fits, ← lookups va]
        split <;> rfl

/-- A range of whole pages below `MAXVA` that avoids the kernel gigapage, from the page at
`first` to the page at `last`. -/
structure PageSpan (first last : Nat) : Prop where
  first_aligned : first % PG_SIZE = 0
  last_aligned : last % PG_SIZE = 0
  ordered : first ≤ last
  below : last < MAXVA
  outside : ∀ va, first / PG_SIZE ≤ va / PG_SIZE → va / PG_SIZE ≤ last / PG_SIZE → OutsideKernel va

theorem PageSpan.tail {first last : Nat} (span : PageSpan first last) (more : first ≠ last) :
    PageSpan (first + PG_SIZE) last := by
  obtain ⟨aligned, aligned', ordered, below, outside⟩ := span
  constructor
  · simp only [PG_SIZE] at *
    omega
  · exact aligned'
  · simp only [PG_SIZE] at *
    omega
  · exact below
  · intro va after before
    apply outside va _ before
    simp only [PG_SIZE] at *
    omega

theorem PageSpan.next {first last : Nat} (span : PageSpan first last) :
    (first + PG_SIZE) % 2 ^ 64 = first + PG_SIZE := by
  have ordered := span.ordered
  have below := span.below
  simp only [MAXVA, PG_SIZE] at *
  omega

/-- Frame numbers do not see the wrap of the physical address. -/
theorem frame_of_wrap (pa : Nat) :
    (pa + PG_SIZE) % 2 ^ 64 / PG_SIZE % Pte.FRAMES = (pa / PG_SIZE + 1) % Pte.FRAMES := by
  simp only [PG_SIZE, Pte.FRAMES]
  omega

theorem frame_of_next (pa : Nat) {start page : Nat} (after : start + 1 ≤ page) :
    ((pa + PG_SIZE) % 2 ^ 64 / PG_SIZE + (page - (start + 1))) % Pte.FRAMES =
      (pa / PG_SIZE + (page - start)) % Pte.FRAMES := by
  rw [← Nat.mod_add_mod, frame_of_wrap, Nat.mod_add_mod,
    show pa / PG_SIZE + 1 + (page - (start + 1)) = pa / PG_SIZE + (page - start) by omega]

/-- The translations after the pages of a span were sent to the frames from `pa` on. -/
def spanTo (first last pa type : Nat) (user global : Bool)
    (before : Nat → Option Translation) (va : Nat) : Option Translation :=
  if first / PG_SIZE ≤ va / PG_SIZE ∧ va / PG_SIZE ≤ last / PG_SIZE then
    some ⟨(pa / PG_SIZE + (va / PG_SIZE - first / PG_SIZE)) % Pte.FRAMES, type % 8, user.toNat,
      global.toNat⟩
  else before va

variable {turns : Nat}

section MapLoop

variable {first last : Nat}

theorem span_to_tail (span : PageSpan first last) (more : first ≠ last)
    {before after : Nat → Option Translation}
    (head : after va =
      if va / PG_SIZE = first / PG_SIZE then some (mappedTo pa type user global) else before va)
    :
    spanTo (first + PG_SIZE) last ((pa + PG_SIZE) % 2 ^ 64) type user global after va =
      spanTo first last pa type user global before va := by
  obtain ⟨aligned, aligned', ordered, below, -⟩ := span
  have next : (first + PG_SIZE) / PG_SIZE = first / PG_SIZE + 1 := by
    simp only [PG_SIZE]
    omega
  have reaches : first / PG_SIZE < last / PG_SIZE := by
    simp only [PG_SIZE] at *
    omega
  rw [spanTo, spanTo, next, head]
  by_cases isFirst : va / PG_SIZE = first / PG_SIZE
  · rw [if_neg (by omega), if_pos isFirst, if_pos (by omega), isFirst, mappedTo, Nat.sub_self,
      Nat.add_zero]
  · by_cases inside : first / PG_SIZE + 1 ≤ va / PG_SIZE ∧ va / PG_SIZE ≤ last / PG_SIZE
    · rw [if_pos inside, if_pos (by omega), frame_of_next pa inside.1]
    · rw [if_neg inside, if_neg isFirst, if_neg (by omega)]

/-- The loop of `map_pages`: the induction is on the turns left, and each turn sends one page. -/
theorem map_loop_spec (laws : FreshPages A managed holds) (view : DirView holds s dir owned live)
    (span : PageSpan first last)
    (maps : mapLoop A dir last type user global turns s first pa = .ok (result, s')) :
    ∃ owned' live', DirView holds s' dir owned' live' ∧ Grows s s' owned live owned' live' ∧
      (result = 0 → ∀ va, va < MAXVA →
        (first / PG_SIZE ≤ va / PG_SIZE → va / PG_SIZE ≤ last / PG_SIZE →
          (lookup s dir va).map Pte.translation = none) ∧
        (lookup s' dir va).map Pte.translation = spanTo first last pa type user global
          (fun va => (lookup s dir va).map Pte.translation) va) := by
  induction turns generalizing s first pa owned live with
  | zero => contradiction
  | succ turns ih =>
    obtain ⟨⟨ended, s₁⟩, turn, goes⟩ := bind_eq_ok.mp maps
    have here := span.outside first (le_refl _) (Nat.div_le_div_right span.ordered)
    obtain ⟨owned₁, live₁, view₁, grows₁, head⟩ :=
      map_turn_spec laws view (span.ordered.trans_lt span.below) here turn
    dsimp only at goes
    split at goes
    · rename_i stopped
      cases goes
      exact ⟨owned₁, live₁, view₁, grows₁, fun zero => absurd zero stopped⟩
    · rename_i continued
      split at goes
      · rename_i isLast
        subst isLast
        cases goes
        obtain ⟨free, moved⟩ := head (not_not.mp continued)
        refine ⟨owned₁, live₁, view₁, grows₁, fun _ va below => ⟨?_, ?_⟩⟩
        · intro after before
          rw [lookup_page below (span.ordered.trans_lt span.below) (by omega), free]
          rfl
        · rw [moved va below, spanTo]
          by_cases same : va / PG_SIZE = first / PG_SIZE
          · rw [if_pos same, if_pos (by omega), same, mappedTo, Nat.sub_self, Nat.add_zero]
          · rw [if_neg same, if_neg (by omega)]
      · rename_i more
        rw [span.next] at goes
        obtain ⟨owned₂, live₂, view₂, grows₂, rest⟩ := ih view₁ (span.tail more) goes
        obtain ⟨free, moved⟩ := head (not_not.mp continued)
        refine ⟨owned₂, live₂, view₂, grows₁.trans grows₂, fun zero va below => ⟨?_, ?_⟩⟩
        · intro after before
          by_cases same : va / PG_SIZE = first / PG_SIZE
          · rw [lookup_page below (span.ordered.trans_lt span.below) same, free]
            rfl
          · have kept := moved va below
            rw [if_neg same] at kept
            rw [← kept]
            apply (rest zero va below).1 _ before
            simp only [PG_SIZE] at *
            omega
        · rw [(rest zero va below).2]
          exact span_to_tail span more (moved va below)

end MapLoop

/-! ## `unmap_pages` -/

section Unmap

variable {stop : Nat}

/-- The directory after the pages from `a` up to `stop` were erased. -/
structure Erased (s s' : Machine σ) (dir : Nat) (owned : Set Nat) (a stop : Nat) : Prop where
  directory : Directory s' dir owned
  lookups : ∀ va, va < MAXVA → lookup s' dir va =
    if a / PG_SIZE ≤ va / PG_SIZE ∧ va / PG_SIZE < stop / PG_SIZE then none else lookup s dir va

theorem unmap_turn_spec (directory : Directory s dir owned) (below : a < MAXVA)
    (outside : OutsideKernel a) (unmaps : unmapTurn A s dir a doFree = .ok s') :
    Erased s s' dir owned a (a + PG_SIZE) := by
  rw [unmapTurn, walk_pages_read A directory below outside, bind_ok] at unmaps
  cases met : follow tableBelow s.word [px 2 a, px 1 a] dir with
  | none =>
    rw [met] at unmaps
    contradiction
  | some table =>
    rw [met] at unmaps
    dsimp only [Option.map_some] at unmaps
    split at unmaps
    · contradiction
    · split at unmaps
      · contradiction
      · obtain ⟨pages, -, unmaps⟩ := bind_eq_ok.mp unmaps
        cases unmaps
        have kept : Directory { s with pages := pages } dir owned := directory.congr fun _ _ => rfl
        refine ⟨kept.write_leaf met, fun va belowVa => ?_⟩
        have onePage : (va / PG_SIZE = a / PG_SIZE) =
            (a / PG_SIZE ≤ va / PG_SIZE ∧ va / PG_SIZE < (a + PG_SIZE) / PG_SIZE) := by
          simp only [PG_SIZE, eq_iff_iff]
          omega
        rw [lookup_write_leaf kept below met belowVa]
        simp only [onePage]
        rfl

theorem erased_nothing (directory : Directory s dir owned) (reached : ¬ a < stop) :
    Erased s s dir owned a stop := by
  have order : stop / PG_SIZE ≤ a / PG_SIZE := Nat.div_le_div_right (not_lt.mp reached)
  refine ⟨directory, fun va _ => ?_⟩
  rw [if_neg (by omega)]

theorem Erased.trans {s₁ s₂ : Machine σ} {middle : Nat} (first : Erased s s₁ dir owned a middle)
    (second : Erased s₁ s₂ dir owned middle stop) (lower : a ≤ middle) (upper : middle ≤ stop) :
    Erased s s₂ dir owned a stop where
  directory := second.directory
  lookups va below := by
    have lower' : a / PG_SIZE ≤ middle / PG_SIZE := Nat.div_le_div_right lower
    have upper' : middle / PG_SIZE ≤ stop / PG_SIZE := Nat.div_le_div_right upper
    rw [second.lookups va below, first.lookups va below]
    split_ifs <;> first | rfl | omega

/-- The loop of `unmap_pages`: the induction is on the turns left, and each turn erases one
page. -/
theorem unmap_loop_spec (directory : Directory s dir owned) (aligned : a % PG_SIZE = 0)
    (stopAligned : stop % PG_SIZE = 0) (below : stop ≤ MAXVA)
    (outside : ∀ va, a / PG_SIZE ≤ va / PG_SIZE → va / PG_SIZE < stop / PG_SIZE → OutsideKernel va)
    (unmaps : unmapLoop A dir stop doFree turns s a = .ok s') :
    Erased s s' dir owned a stop := by
  induction turns generalizing s a with
  | zero =>
    rw [unmapLoop] at unmaps
    split at unmaps
    · contradiction
    · rename_i reached
      cases unmaps
      exact erased_nothing directory reached
  | succ turns ih =>
    rw [unmapLoop] at unmaps
    split at unmaps
    · obtain ⟨s₁, turn, goes⟩ := bind_eq_ok.mp unmaps
      have next : a / PG_SIZE < (a + PG_SIZE) / PG_SIZE ∧ a + PG_SIZE ≤ stop ∧
          (a + PG_SIZE) / PG_SIZE ≤ stop / PG_SIZE := by
        simp only [PG_SIZE] at *
        omega
      have noWrap : (a + PG_SIZE) % 2 ^ 64 = a + PG_SIZE := by
        simp only [MAXVA] at *
        omega
      rw [noWrap] at goes
      have erased₁ := unmap_turn_spec directory (by omega) (outside a (le_refl _) (by omega)) turn
      have erased₂ := ih erased₁.directory (by simp only [PG_SIZE] at *; omega)
        (fun va after before' => outside va (by omega) before') goes
      exact erased₁.trans erased₂ (by omega) next.2.1
    · rename_i reached
      cases unmaps
      exact erased_nothing directory reached

end Unmap

/-! ## Whole calls -/

/-- A range of addresses below `MAXVA` that avoids the kernel gigapage. -/
structure AddressRange (va size : Nat) : Prop where
  below : va + size ≤ MAXVA
  avoids : va + size ≤ 0x80000000 ∨ 0xC0000000 ≤ va

/-- The last page of a nonempty range. -/
def lastPage (va size : Nat) : Nat := pgRoundDown (va + size - 1)

section

variable {size : Nat} (range : AddressRange va size)
include range

theorem range_outside {va' : Nat} (after : va / PG_SIZE ≤ va' / PG_SIZE)
    (before : va' / PG_SIZE * PG_SIZE < va + size) : OutsideKernel va' := by
  have below := range.below
  have avoids := range.avoids
  simp only [OutsideKernel, px, KERNEL_INDEX, TABLE_ENTRIES, MAXVA, PG_SIZE] at *
  omega

theorem range_span (nonempty : 1 ≤ size) : PageSpan (pgRoundDown va) (lastPage va size) := by
  have below := range.below
  constructor
  · simp [pgRoundDown]
  · simp [lastPage, pgRoundDown]
  · exact Nat.mul_le_mul_right _ (Nat.div_le_div_right (by omega))
  · simp only [lastPage, pgRoundDown, PG_SIZE] at *
    omega
  · intro va' after before
    apply range_outside range
    · simpa [pgRoundDown] using after
    · simp only [lastPage, pgRoundDown, PG_SIZE] at *
      omega

theorem map_pages_last (nonempty : 1 ≤ size) :
    pgRoundDown ((va + size + 2 ^ 64 - 1) % 2 ^ 64) = lastPage va size := by
  have below := range.below
  have noWrap : (va + size + 2 ^ 64 - 1) % 2 ^ 64 = va + size - 1 := by
    simp only [MAXVA] at below
    omega
  rw [noWrap, lastPage]

end

/-- `map_pages` on a range: it keeps the directory, and when it succeeds its pages had no
translation and have the new one. -/
theorem map_pages_spec (laws : FreshPages A managed holds) (view : DirView holds s dir owned live)
    {size : Nat} (range : AddressRange va size) (nonempty : 1 ≤ size)
    (maps : mapPages A s dir va pa size type user global = .ok (result, s')) :
    ∃ owned' live', DirView holds s' dir owned' live' ∧ Grows s s' owned live owned' live' ∧
      (result = 0 → ∀ va', va' < MAXVA →
        (pgRoundDown va / PG_SIZE ≤ va' / PG_SIZE → va' / PG_SIZE ≤ lastPage va size / PG_SIZE →
          (lookup s dir va').map Pte.translation = none) ∧
        (lookup s' dir va').map Pte.translation =
          spanTo (pgRoundDown va) (lastPage va size) pa type user global
            (fun va => (lookup s dir va).map Pte.translation) va') := by
  rw [mapPages, map_pages_last range nonempty] at maps
  exact map_loop_spec laws view (range_span range nonempty) maps

theorem unmap_pages_spec (directory : Directory s dir owned) {n : Nat}
    (range : AddressRange va (n * PG_SIZE)) (unmaps : unmapPages A s dir va n doFree = .ok s') :
    Erased s s' dir owned va (va + n * PG_SIZE) := by
  have below := range.below
  rw [unmapPages] at unmaps
  split at unmaps
  · contradiction
  · rename_i aligned
    have noWrap : (va + n * PG_SIZE) % 2 ^ 64 = va + n * PG_SIZE := by
      simp only [MAXVA] at *
      omega
    rw [noWrap] at unmaps
    refine unmap_loop_spec directory (not_not.mp aligned) ?_ below ?_ unmaps
    · simp only [PG_SIZE] at *
      omega
    · intro va' after before
      apply range_outside range after
      simp only [PG_SIZE] at *
      omega

/-! ## `alloc_page_dir` -/

/-- Every system mapping is a nonempty range that avoids the kernel gigapage. -/
def SysmapsAvoid (sysmaps : List MemSysmap) : Prop :=
  ∀ sysmap ∈ sysmaps, 1 ≤ sysmap.size ∧ AddressRange sysmap.va sysmap.size

theorem map_sysmaps_spec (laws : FreshPages A managed holds) (avoid : SysmapsAvoid sysmaps)
    (view : DirView holds s dir owned live) (maps : mapSysmaps A dir sysmaps s = .ok s') :
    ∃ owned' live', DirView holds s' dir owned' live' ∧ Grows s s' owned live owned' live' := by
  induction sysmaps generalizing s owned live with
  | nil =>
    cases maps
    exact ⟨owned, live, view, .refl ..⟩
  | cons sysmap rest ih =>
    obtain ⟨⟨result, s₁⟩, first, goes⟩ := bind_eq_ok.mp maps
    obtain ⟨nonempty, range⟩ := avoid sysmap List.mem_cons_self
    obtain ⟨owned₁, live₁, view₁, grows₁, -⟩ := map_pages_spec laws view range nonempty first
    obtain ⟨owned₂, live₂, view₂, grows₂⟩ :=
      ih (fun m member => avoid m (List.mem_cons_of_mem _ member)) view₁ goes
    exact ⟨owned₂, live₂, view₂, grows₁.trans grows₂⟩

theorem kernel_entry_fits : kernelEntry.Fits := by
  constructor <;> decide

/-- A cleared page with the kernel entry is a directory without tables. -/
theorem directory_fresh (s : Machine σ) (dir : Nat) :
    Directory ((s.clearPage dir).setEntry dir KERNEL_INDEX kernelEntry) dir {dir} := by
  have nothing : ∀ index,
      tableBelow (((s.clearPage dir).setEntry dir KERNEL_INDEX kernelEntry).word dir index) =
        none := by
    intro index
    rw [Machine.setEntry, set_word_word]
    by_cases same : index = KERNEL_INDEX
    · rw [same, write_self]
      decide
    · rw [write_of_ne _ _ _ _ (.inr same), clear_page_word_self]
      rfl
  have onlyRoot : ∀ path page,
      follow tableBelow ((s.clearPage dir).setEntry dir KERNEL_INDEX kernelEntry).word path dir =
        some page → path = [] ∧ page = dir := by
    intro path page met
    cases path with
    | nil =>
      cases met
      exact ⟨rfl, rfl⟩
    | cons index rest =>
      rw [follow, nothing] at met
      contradiction
  constructor
  · constructor
    · intro path page _ met
      exact (onlyRoot path page met).2
    · intro path path' page _ _ met met'
      rw [(onlyRoot path page met).1, (onlyRoot path' page met').1]
  · exact entry_set_entry_self kernel_entry_fits dir KERNEL_INDEX
  · intro path table index _ met notKernel
    obtain ⟨rfl, rfl⟩ := onlyRoot path table met
    have other : index ≠ KERNEL_INDEX := by
      rintro rfl
      exact notKernel rfl
    rw [entry_set_entry_of_ne _ (.inr other), Machine.entry, clear_page_word_self]
    rfl

theorem alloc_page_dir_spec (laws : FreshPages A managed holds) (avoid : SysmapsAvoid sysmaps)
    (held : holds s.pages live) (allocates : allocPageDir A s sysmaps = .ok (some dir, s')) :
    ∃ owned' live', DirView holds s' dir owned' live' ∧ live ⊆ live' ∧
      (∀ f ∈ owned', f ∉ live) ∧ ∀ f, f ∉ owned' → s'.word f = s.word f := by
  obtain ⟨⟨p, pages⟩, gets, goes⟩ := bind_eq_ok.mp allocates
  split at goes
  · cases goes
  · rename_i allocated
    obtain ⟨s₁, maps, done⟩ := bind_eq_ok.mp goes
    cases done
    obtain ⟨_, fresh, handed⟩ := laws.fresh held gets allocated
    rw [block_frames_one] at fresh handed
    obtain ⟨notLive, _⟩ := fresh (p / PG_SIZE) rfl
    obtain ⟨owned₁, live₁, view₁, grows⟩ := map_sysmaps_spec laws avoid
      ⟨directory_fresh { s with pages := pages } (p / PG_SIZE), handed, Set.subset_union_right⟩
      maps
    refine ⟨owned₁, live₁, view₁, Set.subset_union_left.trans grows.handed, ?_, ?_⟩
    · intro f member inLive
      by_cases isRoot : f ∈ ({p / PG_SIZE} : Set Nat)
      · exact notLive (Set.mem_singleton_iff.mp isRoot ▸ inLive)
      · exact grows.fresh f member isRoot (.inl inLive)
    · intro f notOwned
      have other : f ≠ p / PG_SIZE := by
        rintro rfl
        exact notOwned (grows.tables rfl)
      rw [grows.words f notOwned, Machine.setEntry, set_word_word, write,
        Function.update_of_ne other, clear_page_word_of_ne other]

end

end Mftt
