import Mftt.Paging
import Mftt.PowerOfTwo

/-!
# Page tables as partial maps

A page directory is a tree of tables of depth two below its root, plus the entry of the
kernel gigapage. The tables are pages the allocator has handed out, each met along one
pair of indices, so a store to one entry changes the translation of one page only.
`walk_pages` adds blank tables and leaves every translation as it was.
-/

namespace Mftt

open RadixTree

/-- The table an entry points to: entries of type zero point to tables. -/
def tableBelow (raw : Nat) : Option Nat :=
  if (Pte.ofRaw raw).v = 1 ∧ (Pte.ofRaw raw).type = 0 then some (Pte.ofRaw raw).phyPageNumber
  else none

theorem table_below_zero : tableBelow 0 = none := rfl

variable {pte : Pte} {level : Nat}

theorem table_below_pointer (fits : pte.Fits) (valid : pte.v = 1) (pointer : pte.type = 0) :
    tableBelow pte.raw = some pte.phyPageNumber := by
  rw [tableBelow, Pte.of_raw_raw fits, if_pos ⟨valid, pointer⟩]

/-- The frames of the block that `page_alloc` returned for a request of `n` pages. -/
def blockFrames (p n : Nat) : Set Nat :=
  {f | p / PG_SIZE ≤ f ∧ f < p / PG_SIZE + 2 ^ blockOrder n}

/-- An allocator that hands out fresh pages. `holds pages live` says that in the state
`pages` the frames of `live` are handed out; requests and counts of managed frames keep it. -/
structure FreshPages {σ : Type} (A : PageAllocator σ) (managed : Set Nat)
    (holds : σ → Set Nat → Prop) : Prop where
  failed : ∀ {pages live n attr pages'}, holds pages live →
    A.pageAlloc pages n attr = .ok (0, pages') → holds pages' live
  fresh : ∀ {pages live n attr p pages'}, holds pages live →
    A.pageAlloc pages n attr = .ok (p, pages') → p ≠ 0 →
    p % PG_SIZE = 0 ∧ (∀ f ∈ blockFrames p n, f ∉ live ∧ f < Pte.FRAMES) ∧
      holds pages' (live ∪ blockFrames p n)
  counted : ∀ {pages live p count}, holds pages live → p / PG_SIZE ∈ managed →
    holds (A.setReference pages p count) live

/-- A request for pages returns, and one that is not served leaves the allocator as it is. -/
structure AtomicPages {σ : Type} (A : PageAllocator σ) (holds : σ → Set Nat → Prop) : Prop where
  returns : ∀ {pages live n attr}, holds pages live → ∃ got, A.pageAlloc pages n attr = .ok got
  unchanged : ∀ {pages live n attr pages'}, holds pages live →
    A.pageAlloc pages n attr = .ok (0, pages') → pages' = pages

section

variable {σ : Type} {A : PageAllocator σ} {managed : Set Nat} {holds : σ → Set Nat → Prop}
  {s s' : Machine σ} {dir : Nat} {owned live : Set Nat}

/-- The directory in frame `dir`: a tree of the tables in `owned`, with the entry of the
kernel gigapage; no other entry above the last level is a leaf. -/
structure Directory (s : Machine σ) (dir : Nat) (owned : Set Nat) : Prop where
  tree : Tree tableBelow s.word 2 dir owned
  kernel : s.entry dir KERNEL_INDEX = kernelEntry
  pointers : ∀ path table index, path.length < 2 → follow tableBelow s.word path dir = some table →
    path ++ [index] ≠ [KERNEL_INDEX] → (s.entry table index).type = 0

/-- The valid entry of a page, if there is one. -/
def lookup (s : Machine σ) (dir va : Nat) : Option Pte :=
  (follow tableBelow s.word [px 2 va, px 1 va] dir).bind fun table =>
    if (s.entry table (px 0 va)).v = 1 then some (s.entry table (px 0 va)) else none

/-- An address outside the kernel gigapage. -/
def OutsideKernel (va : Nat) : Prop := px 2 va ≠ KERNEL_INDEX

/-- A directory whose tables are handed out. -/
structure DirView (holds : σ → Set Nat → Prop) (s : Machine σ) (dir : Nat)
    (owned live : Set Nat) : Prop where
  directory : Directory s dir owned
  pages : holds s.pages live
  included : owned ⊆ live

/-- How the tables of a directory grow: the new ones were not handed out before, and memory
changes in tables of the directory only. -/
structure Grows (s s' : Machine σ) (owned live owned' live' : Set Nat) : Prop where
  tables : owned ⊆ owned'
  handed : live ⊆ live'
  fresh : ∀ f ∈ owned', f ∉ owned → f ∉ live
  words : ∀ f, f ∉ owned' → s'.word f = s.word f

theorem Grows.refl (s : Machine σ) (owned live : Set Nat) : Grows s s owned live owned live :=
  ⟨subset_rfl, subset_rfl, fun _ member outside => absurd member outside, fun _ _ => rfl⟩

theorem Grows.trans {s₁ s₂ s₃ : Machine σ} {owned₁ live₁ owned₂ live₂ owned₃ live₃ : Set Nat}
    (first : Grows s₁ s₂ owned₁ live₁ owned₂ live₂)
    (second : Grows s₂ s₃ owned₂ live₂ owned₃ live₃) :
    Grows s₁ s₃ owned₁ live₁ owned₃ live₃ where
  tables := first.tables.trans second.tables
  handed := first.handed.trans second.handed
  fresh f member outside := by
    by_cases already : f ∈ owned₂
    · exact first.fresh f already outside
    · exact fun inLive => second.fresh f member already (first.handed inLive)
  words f outside :=
    (second.words f outside).trans (first.words f fun inside => outside (second.tables inside))

/-! ## Walking -/

theorem block_frames_one (p : Nat) : blockFrames p 1 = {p / PG_SIZE} := by
  ext f
  have one : 2 ^ blockOrder 1 = 1 := by decide
  simp only [blockFrames, Set.mem_ofPred_eq, Set.mem_singleton_iff]
  omega

@[simp] theorem set_word_word (s : Machine σ) (table index raw : Nat) :
    (s.setWord table index raw).word = write s.word table index raw := rfl

theorem entry_set_word_self (s : Machine σ) (table index raw : Nat) :
    (s.setWord table index raw).entry table index = Pte.ofRaw raw := by
  rw [Machine.entry, set_word_word, write_self]

variable {table va : Nat} {alloc : Bool} {found : Option Nat} {path : List Nat}

theorem entry_set_word_of_ne (s : Machine σ) (raw : Nat) {index table' index' : Nat}
    (different : table' ≠ table ∨ index' ≠ index) :
    (s.setWord table index raw).entry table' index' = s.entry table' index' := by
  rw [Machine.entry, set_word_word, write_of_ne _ _ _ _ different]
  rfl

theorem entry_set_entry_self (fits : pte.Fits) (table index : Nat) :
    (s.setEntry table index pte).entry table index = pte := by
  rw [Machine.setEntry, entry_set_word_self, Pte.of_raw_raw fits]

theorem entry_set_entry_of_ne (pte : Pte) {index table' index' : Nat}
    (different : table' ≠ table ∨ index' ≠ index) :
    (s.setEntry table index pte).entry table' index' = s.entry table' index' :=
  entry_set_word_of_ne s pte.raw different

theorem clear_page_word_of_ne {frame f : Nat} (other : f ≠ frame) :
    (s.clearPage frame).word f = s.word f :=
  Function.update_of_ne other ..

theorem clear_page_word_self (s : Machine σ) (frame index : Nat) :
    (s.clearPage frame).word frame index = 0 := by
  simp [Machine.clearPage]

/-- A directory depends only on the memory of its tables. -/
theorem Directory.congr (directory : Directory s dir owned)
    (same : ∀ f ∈ owned, s'.word f = s.word f) : Directory s' dir owned := by
  have below : ∀ page ∈ owned, ∀ index,
      tableBelow (s'.word page index) = tableBelow (s.word page index) := by
    intro page member index
    rw [same page member]
  have root : dir ∈ owned := directory.tree.owns [] dir (by simp) rfl
  constructor
  · exact tree_of_owned directory.tree subset_rfl below
  · rw [Machine.entry, same dir root]
    exact directory.kernel
  · intro path table index short met
    rw [follow_of_owned directory.tree below (by omega)] at met
    rw [Machine.entry, same table (directory.tree.owns path table (by omega) met)]
    exact directory.pointers path table index short met

theorem lookup_congr (directory : Directory s dir owned)
    (same : ∀ f ∈ owned, s'.word f = s.word f) (va : Nat) : lookup s' dir va = lookup s dir va := by
  have below : ∀ page ∈ owned, ∀ index,
      tableBelow (s'.word page index) = tableBelow (s.word page index) := by
    intro page member index
    rw [same page member]
  have tables := follow_of_owned directory.tree below (by simp : [px 2 va, px 1 va].length ≤ 2)
  rw [lookup, lookup, tables]
  cases met : follow tableBelow s.word [px 2 va, px 1 va] dir with
  | none => rfl
  | some table =>
    rw [Option.bind_some, Machine.entry, same table (directory.tree.owns _ table (by simp) met)]
    rfl

/-- The entry that points to a new table, over an entry that pointed nowhere. -/
def Pte.pointTo (pte : Pte) (frame : Nat) : Pte :=
  { pte with phyPageNumber := frame % FRAMES, v := 1 }

theorem fits_point_to (fits : pte.Fits) (frame : Nat) : (pte.pointTo frame).Fits :=
  { fits with v := by simp [Pte.pointTo], phyPageNumber := Nat.mod_lt _ (by norm_num) }

theorem entry_fits (s : Machine σ) (table index : Nat) : (s.entry table index).Fits :=
  Pte.fits_of_raw _

section Attach

variable {index frame : Nat}

/-- What `walk_level` has when it adds a blank table in `frame` below an entry. -/
structure Attaches (s : Machine σ) (dir : Nat) (owned : Set Nat) (path : List Nat)
    (table index frame : Nat) : Prop where
  directory : Directory s dir owned
  short : path.length < 2
  met : follow tableBelow s.word path dir = some table
  notKernel : path ++ [index] ≠ [KERNEL_INDEX]
  empty : (s.entry table index).v ≠ 1
  fresh : frame ∉ owned
  small : frame < Pte.FRAMES
  blank : ∀ i, s.word frame i = 0

variable (attaches : Attaches s dir owned path table index frame)
include attaches

theorem Attaches.points : tableBelow ((s.entry table index).pointTo frame).raw = some frame := by
  have pointer := attaches.directory.pointers path table index attaches.short attaches.met
    attaches.notKernel
  rw [table_below_pointer (fits_point_to (entry_fits s table index) frame) rfl pointer]
  exact congrArg some (Nat.mod_eq_of_lt attaches.small)

theorem Attaches.nothing : tableBelow (s.word table index) = none :=
  if_neg fun valid => attaches.empty valid.1

theorem Attaches.other : table ≠ frame := by
  rintro rfl
  have short := attaches.short
  exact attaches.fresh (attaches.directory.tree.owns path table (by omega) attaches.met)

/-- The pages met in the directory with the new table. -/
theorem Attaches.follows {path' : List Nat} (short : path'.length ≤ 2) :
    follow tableBelow (s.setEntry table index ((s.entry table index).pointTo frame)).word path'
      dir =
      if path' = path ++ [index] then some frame else follow tableBelow s.word path' dir :=
  follow_attach attaches.directory.tree attaches.short attaches.met attaches.nothing
    attaches.points attaches.fresh (fun i => by rw [attaches.blank, table_below_zero]) short

theorem Attaches.extended :
    Directory (s.setEntry table index ((s.entry table index).pointTo frame)) dir
      (insert frame owned) := by
  have directory := attaches.directory
  have short := attaches.short
  have fits := fits_point_to (entry_fits s table index) frame
  constructor
  · exact tree_attach directory.tree short attaches.met attaches.nothing attaches.points
      attaches.fresh fun i => by rw [attaches.blank, table_below_zero]
  · rw [entry_set_entry_of_ne, directory.kernel]
    by_contra same
    simp only [not_or, not_not] at same
    obtain ⟨rfl, rfl⟩ := same
    have root := directory.tree.unique path [] dir (by omega) (by simp) attaches.met rfl
    exact attaches.notKernel (by rw [root]; rfl)
  · intro path' table' index' short' met' notKernel
    rw [attaches.follows (by omega)] at met'
    split at met'
    · cases met'
      rw [entry_set_entry_of_ne _ (.inl attaches.other.symm), Machine.entry, attaches.blank]
      rfl
    · by_cases same : table' = table ∧ index' = index
      · obtain ⟨rfl, rfl⟩ := same
        rw [entry_set_entry_self fits]
        exact directory.pointers path' table' index' short' met' notKernel
      · rw [entry_set_entry_of_ne _ (not_and_or.mp same)]
        exact directory.pointers path' table' index' short' met' notKernel

/-- A blank table adds no translation. -/
theorem Attaches.lookups (va : Nat) :
    lookup (s.setEntry table index ((s.entry table index).pointTo frame)) dir va =
      lookup s dir va := by
  have directory := attaches.directory
  have short := attaches.short
  rw [lookup, lookup, attaches.follows (by simp)]
  split
  · rename_i same
    have before : follow tableBelow s.word (path ++ [index]) dir = none := by
      rw [follow_snoc, attaches.met, Option.bind_some, attaches.nothing]
    rw [same, before, Option.bind_some, entry_set_entry_of_ne _ (.inl attaches.other.symm),
      Machine.entry, attaches.blank]
    rfl
  · cases met : follow tableBelow s.word [px 2 va, px 1 va] dir with
    | none => rfl
    | some low =>
      have deeper : low ≠ table := by
        rintro rfl
        have equal := directory.tree.unique _ path low (by simp) (by omega) met attaches.met
        rw [← equal] at short
        simp at short
      rw [Option.bind_some, Option.bind_some, entry_set_entry_of_ne _ (.inl deeper)]

end Attach

/-- The outcome of a walk, whole or one level of it: a view of the same directory with tables
added, in which `path` leads to the table found. -/
structure Walked (holds : σ → Set Nat → Prop) (s s' : Machine σ) (dir : Nat)
    (owned live owned' live' : Set Nat) (path : List Nat) (found : Option Nat) : Prop where
  view : DirView holds s' dir owned' live'
  grows : Grows s s' owned live owned' live'
  lookups : ∀ va, lookup s' dir va = lookup s dir va
  reaches : ∀ table, found = some table → follow tableBelow s'.word path dir = some table

theorem walk_level_cases (walks : walkLevel A s table level va alloc = .ok (found, s')) :
    ((s.entry table (px level va)).v = 1 ∧
      found = some (s.entry table (px level va)).phyPageNumber ∧ s' = s) ∨
    (found = none ∧ s' = s) ∨
    (found = none ∧ ∃ pages, A.pageAlloc s.pages 1 PAGE_TYPE_PGTBL = .ok (0, pages) ∧
      s' = { s with pages := pages }) ∨
    ∃ p pages, A.pageAlloc s.pages 1 PAGE_TYPE_PGTBL = .ok (p, pages) ∧ p ≠ 0 ∧
      (s.entry table (px level va)).v ≠ 1 ∧ found = some (p / PG_SIZE) ∧
      s' = ({ s with pages := pages }.clearPage (p / PG_SIZE)).setEntry table (px level va)
        ((({ s with pages := pages }.clearPage (p / PG_SIZE)).entry table
          (px level va)).pointTo (p / PG_SIZE)) := by
  rw [walkLevel] at walks
  split at walks
  · rename_i valid
    cases walks
    exact .inl ⟨valid, rfl, rfl⟩
  · rename_i empty
    split at walks
    · cases walks
      exact .inr (.inl ⟨rfl, rfl⟩)
    · obtain ⟨⟨p, pages⟩, allocates, walks⟩ := bind_eq_ok.mp walks
      dsimp only at walks
      split at walks
      · rename_i failed
        cases walks
        exact .inr (.inr (.inl ⟨rfl, pages, by rw [allocates, ← failed], rfl⟩))
      · rename_i allocated
        cases walks
        exact .inr (.inr (.inr ⟨p, pages, allocates, allocated, empty, rfl, rfl⟩))

section

variable (laws : FreshPages A managed holds) (view : DirView holds s dir owned live)
include laws view

/-- A page that was handed out for a table lies outside the directory. -/
theorem DirView.page_fresh {p : Nat} {pages : σ}
    (allocates : A.pageAlloc s.pages 1 PAGE_TYPE_PGTBL = .ok (p, pages)) (allocated : p ≠ 0) :
    p / PG_SIZE ∉ live ∧ p / PG_SIZE < Pte.FRAMES ∧ holds pages (live ∪ {p / PG_SIZE}) ∧
      ∀ f ∈ owned, ({ s with pages := pages }.clearPage (p / PG_SIZE)).word f = s.word f := by
  obtain ⟨_, fresh, handed⟩ := laws.fresh view.pages allocates allocated
  rw [block_frames_one] at fresh handed
  obtain ⟨notLive, small⟩ := fresh (p / PG_SIZE) rfl
  refine ⟨notLive, small, handed, ?_⟩
  intro f member
  apply clear_page_word_of_ne
  rintro rfl
  exact notLive (view.included member)

/-- The table is attached in the memory where its page has been cleared. -/
theorem DirView.attaches {index p : Nat} {pages : σ} (short : path.length < 2)
    (met : follow tableBelow s.word path dir = some table)
    (notKernel : path ++ [index] ≠ [KERNEL_INDEX]) (empty : (s.entry table index).v ≠ 1)
    (allocates : A.pageAlloc s.pages 1 PAGE_TYPE_PGTBL = .ok (p, pages)) (allocated : p ≠ 0) :
    Attaches ({ s with pages := pages }.clearPage (p / PG_SIZE)) dir owned path table index
      (p / PG_SIZE) := by
  obtain ⟨notLive, small, -, same⟩ := view.page_fresh laws allocates allocated
  have inside := view.directory.tree.owns path table (by omega) met
  exact
    { directory := view.directory.congr same
      short := short
      met := by
        rw [follow_of_owned view.directory.tree _ (by omega), met]
        intro page member index
        rw [same page member]
      notKernel := notKernel
      empty := by
        rw [Machine.entry, same table inside]
        exact empty
      fresh := fun member => notLive (view.included member)
      small := small
      blank := fun i => clear_page_word_self _ _ i }

/-- One level of the walk: it finds a table, puts a new one in place, or ends. -/
theorem walk_level_spec (short : path.length < 2)
    (met : follow tableBelow s.word path dir = some table)
    (notKernel : path ++ [px level va] ≠ [KERNEL_INDEX])
    (walks : walkLevel A s table level va alloc = .ok (found, s')) :
    ∃ owned' live', Walked holds s s' dir owned live owned' live' (path ++ [px level va]) found := by
  have directory := view.directory
  rcases walk_level_cases walks with ⟨valid, rfl, rfl⟩ | ⟨rfl, rfl⟩ |
    ⟨rfl, pages, allocates, rfl⟩ | ⟨p, pages, allocates, allocated, empty, rfl, rfl⟩
  · refine ⟨owned, live, view, .refl .., fun _ => rfl, ?_⟩
    rintro low ⟨⟩
    have pointer := directory.pointers path table _ short met notKernel
    rw [follow_snoc, met]
    exact if_pos ⟨valid, pointer⟩
  · exact ⟨owned, live, view, .refl .., fun _ => rfl, nofun⟩
  · refine ⟨owned, live, ⟨?_, laws.failed view.pages allocates, view.included⟩, ?_,
      fun _ => rfl, nofun⟩
    · exact directory.congr fun _ _ => rfl
    · exact ⟨subset_rfl, subset_rfl, fun _ member outside => absurd member outside, fun _ _ => rfl⟩
  · obtain ⟨notLive, -, handed, same⟩ := view.page_fresh laws allocates allocated
    have attaches := view.attaches laws short met notKernel empty allocates allocated
    have inside := directory.tree.owns path table (by omega) met
    refine ⟨insert (p / PG_SIZE) owned, live ∪ {p / PG_SIZE}, ⟨attaches.extended, handed, ?_⟩,
      ⟨Set.subset_insert .., Set.subset_union_left, ?_, ?_⟩, ?_, ?_⟩
    · intro f member
      rcases member with rfl | member
      · exact .inr rfl
      · exact .inl (view.included member)
    · intro f member outside
      rcases member with rfl | member
      · exact notLive
      · exact absurd member outside
    · intro f outside
      rw [Set.mem_insert_iff, not_or] at outside
      have other : f ≠ table := by
        rintro rfl
        exact outside.2 inside
      rw [Machine.setEntry, set_word_word, write, Function.update_of_ne other]
      exact clear_page_word_of_ne outside.1
    · intro va'
      exact (attaches.lookups va').trans (lookup_congr directory same va')
    · rintro low ⟨⟩
      exact (attaches.follows (by simp; omega)).trans (if_pos rfl)

/-- `walk_pages` changes no translation and finds the table of the last level. -/
theorem walk_pages_spec {slot : Option (Nat × Nat)} (outside : OutsideKernel va)
    (walks : walkPages A s dir va alloc = .ok (slot, s')) :
    ∃ owned' live', DirView holds s' dir owned' live' ∧ Grows s s' owned live owned' live' ∧
      (∀ va', lookup s' dir va' = lookup s dir va') ∧
      ∀ table index, slot = some (table, index) → index = px 0 va ∧
        follow tableBelow s'.word [px 2 va, px 1 va] dir = some table := by
  rw [walkPages] at walks
  split at walks
  · contradiction
  · obtain ⟨⟨middle, s₁⟩, first, walks⟩ := bind_eq_ok.mp walks
    have notKernel : ([] : List Nat) ++ [px 2 va] ≠ [KERNEL_INDEX] := by
      simpa [OutsideKernel] using outside
    obtain ⟨owned₁, live₁, view₁, grows₁, lookups₁, reaches₁⟩ :=
      walk_level_spec laws view (by simp) rfl notKernel first
    cases middle with
    | none =>
      cases walks
      exact ⟨owned₁, live₁, view₁, grows₁, lookups₁, nofun⟩
    | some table =>
      obtain ⟨⟨low, s₂⟩, second, walks⟩ := bind_eq_ok.mp walks
      cases walks
      obtain ⟨owned₂, live₂, view₂, grows₂, lookups₂, reaches₂⟩ :=
        walk_level_spec laws view₁ (by simp) (reaches₁ table rfl) (by simp) second
      refine ⟨owned₂, live₂, view₂, grows₁.trans grows₂,
        fun va' => (lookups₂ va').trans (lookups₁ va'), ?_⟩
      intro table' index found
      cases low with
      | none => contradiction
      | some low =>
        cases found
        exact ⟨rfl, reaches₂ _ rfl⟩

end

theorem walk_level_read (A : PageAllocator σ) (directory : Directory s dir owned)
    (short : path.length < 2) (met : follow tableBelow s.word path dir = some table)
    (notKernel : path ++ [px level va] ≠ [KERNEL_INDEX]) :
    walkLevel A s table level va false =
      .ok (follow tableBelow s.word (path ++ [px level va]) dir, s) := by
  have pointer := directory.pointers path table _ short met notKernel
  rw [walkLevel, follow_snoc, met]
  by_cases valid : (s.entry table (px level va)).v = 1
  · rw [if_pos valid]
    congr
    exact (if_pos ⟨valid, pointer⟩).symm
  · rw [if_neg valid, if_pos rfl]
    congr
    exact (if_neg fun both => valid both.1).symm

/-- Without allocation `walk_pages` finds the table of an address, if there is one, and changes
nothing. -/
theorem walk_pages_read (A : PageAllocator σ) (directory : Directory s dir owned)
    (below : va < MAXVA) (outside : OutsideKernel va) :
    walkPages A s dir va false =
      .ok ((follow tableBelow s.word [px 2 va, px 1 va] dir).map fun table => (table, px 0 va),
        s) := by
  have notKernel : ([] : List Nat) ++ [px 2 va] ≠ [KERNEL_INDEX] := by
    simpa [OutsideKernel] using outside
  have split : follow tableBelow s.word [px 2 va, px 1 va] dir =
      (follow tableBelow s.word ([] ++ [px 2 va]) dir).bind (follow tableBelow s.word [px 1 va]) :=
    follow_append [px 2 va] [px 1 va] dir
  rw [walkPages, if_neg (by omega), walk_level_read A directory (by simp) rfl notKernel, bind_ok,
    split]
  cases met : follow tableBelow s.word ([] ++ [px 2 va]) dir with
  | none => rfl
  | some table =>
    have rest : walkLevel A s table 1 va false =
        .ok (follow tableBelow s.word ([] ++ [px 2 va] ++ [px 1 va]) dir, s) :=
      walk_level_read A directory (by simp) met (by simp)
    dsimp only
    rw [rest, bind_ok, follow_append, met]

/-! ## Leaf entries -/

/-- The three indices of an address below `MAXVA` determine its page. -/
theorem px_eq_iff {va' : Nat} (below : va < MAXVA) (below' : va' < MAXVA) :
    px 2 va = px 2 va' ∧ px 1 va = px 1 va' ∧ px 0 va = px 0 va' ↔ va / PG_SIZE = va' / PG_SIZE := by
  simp only [px, MAXVA, TABLE_ENTRIES, PG_SIZE] at *
  omega

section Leaf

variable {raw : Nat}

theorem Directory.write_leaf (directory : Directory s dir owned)
    (met : follow tableBelow s.word [px 2 va, px 1 va] dir = some table) :
    Directory (s.setWord table (px 0 va) raw) dir owned := by
  have deeper : ∀ path table', path.length < 2 → follow tableBelow s.word path dir = some table' →
      table' ≠ table := by
    rintro path table' short met' rfl
    have equal := directory.tree.unique path _ table' (by omega) (by simp) met' met
    rw [equal] at short
    simp at short
  constructor
  · exact tree_write_leaf directory.tree (by simp) met
  · rw [entry_set_word_of_ne _ _ (.inl (deeper [] dir (by simp) rfl))]
    exact directory.kernel
  · intro path table' index short met'
    rw [set_word_word, follow_write_leaf directory.tree (by simp) met (by omega)] at met'
    rw [entry_set_word_of_ne _ _ (.inl (deeper path table' short met'))]
    exact directory.pointers path table' index short met'

/-- A store to the entry of one page changes the translation of that page only. -/
theorem lookup_write_leaf (directory : Directory s dir owned) (below : va < MAXVA)
    (met : follow tableBelow s.word [px 2 va, px 1 va] dir = some table) {va' : Nat}
    (below' : va' < MAXVA) :
    lookup (s.setWord table (px 0 va) raw) dir va' =
      if va' / PG_SIZE = va / PG_SIZE then
        if (Pte.ofRaw raw).v = 1 then some (Pte.ofRaw raw) else none
      else lookup s dir va' := by
  rw [lookup, set_word_word, follow_write_leaf directory.tree (by simp) met (by simp)]
  split
  · rename_i samePage
    obtain ⟨two, one, zero⟩ := (px_eq_iff below' below).mpr samePage
    rw [two, one, zero, met, Option.bind_some, entry_set_word_self]
  · rename_i otherPage
    rw [lookup]
    cases met' : follow tableBelow s.word [px 2 va', px 1 va'] dir with
    | none => rfl
    | some table' =>
      have different : table' ≠ table ∨ px 0 va' ≠ px 0 va := by
        by_contra same
        simp only [not_or, not_not] at same
        obtain ⟨rfl, zero⟩ := same
        have equal := directory.tree.unique _ _ table' (by simp) (by simp) met' met
        simp only [List.cons.injEq, and_true] at equal
        exact otherPage ((px_eq_iff below' below).mp ⟨equal.1, equal.2, zero⟩)
      rw [Option.bind_some, Option.bind_some, entry_set_word_of_ne _ _ different]

end Leaf

/-! ## The tables of a directory -/

/-- The table pages of a directory. -/
def tables (s : Machine σ) (dir : Nat) : Set Nat :=
  {f | ∃ path, path.length ≤ 2 ∧ follow tableBelow s.word path dir = some f}

theorem tables_subset (directory : Directory s dir owned) : tables s dir ⊆ owned := by
  rintro f ⟨path, short, met⟩
  exact directory.tree.owns path f short met

theorem Directory.of_tables (directory : Directory s dir owned) :
    Directory s dir (tables s dir) where
  tree := ⟨fun path _ short met => ⟨path, short, met⟩, directory.tree.unique⟩
  kernel := directory.kernel
  pointers := directory.pointers

theorem DirView.of_tables (view : DirView holds s dir owned live) :
    DirView holds s dir (tables s dir) live :=
  ⟨view.directory.of_tables, view.pages, (tables_subset view.directory).trans view.included⟩

theorem tables_congr (directory : Directory s dir owned)
    (same : ∀ f ∈ owned, s'.word f = s.word f) : tables s' dir = tables s dir := by
  have below : ∀ page ∈ owned, ∀ index,
      tableBelow (s'.word page index) = tableBelow (s.word page index) := by
    intro page member index
    rw [same page member]
  ext f
  constructor
  · rintro ⟨path, short, met⟩
    rw [follow_of_owned directory.tree below short] at met
    exact ⟨path, short, met⟩
  · rintro ⟨path, short, met⟩
    rw [← follow_of_owned directory.tree below short] at met
    exact ⟨path, short, met⟩

end

end Mftt
