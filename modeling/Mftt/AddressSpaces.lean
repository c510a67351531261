import Mftt.PageMaps

/-!
# Several address spaces in one memory

The page directories of the processes, and that of the kernel, are trees of tables that
share no page. What is done to one directory then leaves the others as they are, and so
does what is done to pages that are no tables.
-/

namespace Mftt

open RadixTree

section

variable {σ : Type}

/-- The translation of a user address by a directory. -/
def mapping (s : Machine σ) (dir va : Nat) : Option Translation :=
  (lookup s dir va).map Pte.translation

/-- Page directories whose tables are handed out and apart from each other. -/
structure Spaces (holds : σ → Set Nat → Prop) (s : Machine σ) (roots live : Set Nat) : Prop where
  directory : ∀ root ∈ roots, Directory s root (tables s root)
  apart : ∀ root ∈ roots, ∀ root' ∈ roots, root ≠ root' → ∀ f ∈ tables s root, f ∉ tables s root'
  handed : ∀ root ∈ roots, tables s root ⊆ live
  pages : holds s.pages live

variable {A : PageAllocator σ} {managed : Set Nat} {holds : σ → Set Nat → Prop}
  {s s' : Machine σ} {roots live live' owned' : Set Nat} {root other : Nat}

theorem Spaces.view (spaces : Spaces holds s roots live) (member : root ∈ roots) :
    DirView holds s root (tables s root) live :=
  ⟨spaces.directory root member, spaces.pages, spaces.handed root member⟩

/-- One directory alone. -/
theorem DirView.spaces {owned : Set Nat} (view : DirView holds s root owned live) :
    Spaces holds s {root} live where
  directory := by
    rintro _ rfl
    exact view.directory.of_tables
  apart := by
    rintro _ rfl _ rfl different
    exact absurd rfl different
  handed := by
    rintro _ rfl
    exact (tables_subset view.directory).trans view.included
  pages := view.pages

theorem root_mem_tables (s : Machine σ) (root : Nat) : root ∈ tables s root :=
  ⟨[], by simp, rfl⟩

/-- Memory and allocator may change outside the tables. -/
theorem Spaces.congr (spaces : Spaces holds s roots live) (held : holds s'.pages live')
    (handed : ∀ root ∈ roots, tables s root ⊆ live')
    (words : ∀ root ∈ roots, ∀ f ∈ tables s root, s'.word f = s.word f) :
    Spaces holds s' roots live' := by
  have same : ∀ root ∈ roots, tables s' root = tables s root := fun root member =>
    tables_congr (spaces.directory root member) (words root member)
  constructor
  · intro root member
    rw [same root member]
    exact (spaces.directory root member).congr (words root member)
  · intro root member root' member'
    rw [same root member, same root' member']
    exact spaces.apart root member root' member'
  · intro root member
    rw [same root member]
    exact handed root member
  · exact held

/-! ## Work on one directory -/

section Grow

variable (spaces : Spaces holds s roots live)
  (view : DirView holds s' root owned' live') (grows : Grows s s' (tables s root) live owned' live')

include spaces grows

variable (member : root ∈ roots)
include member

/-- The tables of the other directories are handed out, so none of them is a new table. -/
theorem Spaces.untouched (otherMember : other ∈ roots) (different : other ≠ root) :
    ∀ f ∈ tables s other, s'.word f = s.word f := by
  intro f inOther
  apply grows.words
  intro inOwned
  by_cases already : f ∈ tables s root
  · exact spaces.apart other otherMember root member different f inOther already
  · exact grows.fresh f inOwned already (spaces.handed other otherMember inOther)

include view

/-- A directory that grows stays apart from the others. -/
theorem Spaces.grow : Spaces holds s' roots live' := by
  have same : ∀ other ∈ roots, other ≠ root → tables s' other = tables s other :=
    fun other otherMember different => tables_congr (spaces.directory other otherMember)
      (spaces.untouched grows member otherMember different)
  have clear : ∀ other ∈ roots, other ≠ root → ∀ f ∈ tables s other, f ∉ tables s' root := by
    intro other otherMember different f inOther inRoot
    have inOwned := tables_subset view.directory inRoot
    by_cases already : f ∈ tables s root
    · exact spaces.apart other otherMember root member different f inOther already
    · exact grows.fresh f inOwned already (spaces.handed other otherMember inOther)
  constructor
  · intro other otherMember
    by_cases isRoot : other = root
    · rw [isRoot]
      exact view.directory.of_tables
    · rw [same other otherMember isRoot]
      exact (spaces.directory other otherMember).congr
        (spaces.untouched grows member otherMember isRoot)
  · intro left leftMember right rightMember different f inLeft
    by_cases leftIs : left = root
    · subst leftIs
      rw [same right rightMember different.symm]
      exact fun inRight => clear right rightMember different.symm f inRight inLeft
    · rw [same left leftMember leftIs] at inLeft
      by_cases rightIs : right = root
      · rw [rightIs]
        exact clear left leftMember leftIs f inLeft
      · rw [same right rightMember rightIs]
        exact spaces.apart left leftMember right rightMember different f inLeft
  · intro other otherMember
    by_cases isRoot : other = root
    · rw [isRoot]
      exact (tables_subset view.directory).trans view.included
    · rw [same other otherMember isRoot]
      exact (spaces.handed other otherMember).trans grows.handed
  · exact view.pages

omit view in
/-- Work on one directory moves no table of another. -/
theorem Spaces.follow_other (otherMember : other ∈ roots) (different : other ≠ root)
    {path : List Nat} (short : path.length ≤ 2) :
    follow tableBelow s'.word path other = follow tableBelow s.word path other := by
  apply follow_of_owned (spaces.directory other otherMember).tree _ short
  intro f inTables index
  rw [spaces.untouched grows member otherMember different f inTables]

omit view in
/-- Work on one directory changes no translation of another. -/
theorem Spaces.lookup_other (otherMember : other ∈ roots) (different : other ≠ root) (va : Nat) :
    lookup s' other va = lookup s other va :=
  lookup_congr (spaces.directory other otherMember)
    (spaces.untouched grows member otherMember different) va

end Grow

/-- A new directory joins the others. -/
theorem Spaces.join (spaces : Spaces holds s roots live) (view : DirView holds s' root owned' live')
    (wider : live ⊆ live') (fresh : ∀ f ∈ owned', f ∉ live)
    (words : ∀ f, f ∉ owned' → s'.word f = s.word f) :
    Spaces holds s' (insert root roots) live' := by
  have untouched : ∀ other ∈ roots, ∀ f ∈ tables s other, s'.word f = s.word f :=
    fun other member f inOther =>
      words f fun inOwned => fresh f inOwned (spaces.handed other member inOther)
  have old : Spaces holds s' roots live' :=
    spaces.congr view.pages (fun other member => (spaces.handed other member).trans wider) untouched
  have handedBefore : ∀ other ∈ roots, tables s' other ⊆ live := fun other member =>
    (tables_congr (spaces.directory other member) (untouched other member)).subset.trans
      (spaces.handed other member)
  have clear : ∀ other ∈ roots, ∀ f ∈ tables s' other, f ∉ tables s' root :=
    fun other member f inOther inRoot =>
      fresh f (tables_subset view.directory inRoot) (handedBefore other member inOther)
  constructor
  · rintro other (rfl | member)
    · exact view.directory.of_tables
    · exact old.directory other member
  · rintro left (rfl | leftMember) right (rfl | rightMember) different f inLeft
    · exact absurd rfl different
    · exact fun inRight => clear right rightMember f inRight inLeft
    · exact clear left leftMember f inLeft
    · exact old.apart left leftMember right rightMember different f inLeft
  · rintro other (rfl | member)
    · exact (tables_subset view.directory).trans view.included
    · exact old.handed other member
  · exact view.pages

/-! ## What a routine leaves alone -/

/-- Work on address spaces that hands out pages but takes none back. -/
structure SpacesGrow (holds : σ → Set Nat → Prop) (s' : Machine σ) (roots live live' : Set Nat) :
    Prop where
  spaces : Spaces holds s' roots live'
  wider : live ⊆ live'

theorem SpacesGrow.trans {s₁ s₂ : Machine σ} {live₁ live₂ : Set Nat}
    (first : SpacesGrow holds s₁ roots live live₁)
    (second : SpacesGrow holds s₂ roots live₁ live₂) : SpacesGrow holds s₂ roots live live₂ where
  spaces := second.spaces
  wider := first.wider.trans second.wider

theorem Spaces.grows (spaces : Spaces holds s roots live) (member : root ∈ roots)
    (view : DirView holds s' root owned' live')
    (grows : Grows s s' (tables s root) live owned' live') :
    SpacesGrow holds s' roots live live' where
  spaces := spaces.grow view grows member
  wider := grows.handed

/-- The allocator may hand out pages, and fresh pages may be written. -/
theorem Spaces.handOut (spaces : Spaces holds s roots live) (held : holds s'.pages live')
    (wider : live ⊆ live') (words : ∀ f ∈ live, s'.word f = s.word f) :
    SpacesGrow holds s' roots live live' where
  spaces := spaces.congr held (fun root member => (spaces.handed root member).trans wider)
    fun root member f inTables => words f (spaces.handed root member inTables)
  wider := wider

section Kept

variable (spaces : Spaces holds s roots live) (member : root ∈ roots)
  (words : ∀ f ∈ live, s'.word f = s.word f)

include spaces member words

theorem Spaces.follow_kept {path : List Nat} (short : path.length ≤ 2) :
    follow tableBelow s'.word path root = follow tableBelow s.word path root := by
  apply follow_of_owned (spaces.directory root member).tree _ short
  intro f inTables index
  rw [words f (spaces.handed root member inTables)]

theorem Spaces.entry_kept {table : Nat} (inTables : table ∈ tables s root) (index : Nat) :
    s'.entry table index = s.entry table index := by
  rw [Machine.entry, Machine.entry, words table (spaces.handed root member inTables)]

theorem Spaces.mapping_kept (va : Nat) : mapping s' root va = mapping s root va := by
  rw [mapping, mapping, lookup_congr (spaces.directory root member)
    fun f inTables => words f (spaces.handed root member inTables)]

end Kept

/-! ## Leaf entries -/

section Leaf

variable {va table : Nat}

section

variable (spaces : Spaces holds s roots live) (member : root ∈ roots)
  (met : follow tableBelow s.word [px 2 va, px 1 va] root = some table)
include spaces member met

/-- A leaf entry may be written. -/
theorem Spaces.write_leaf (raw : Nat) :
    DirView holds (s.setWord table (px 0 va) raw) root (tables s root) live ∧
      Grows s (s.setWord table (px 0 va) raw) (tables s root) live (tables s root) live := by
  have inside : table ∈ tables s root := ⟨_, by simp, met⟩
  constructor
  · exact ⟨(spaces.directory root member).write_leaf met, spaces.pages, spaces.handed root member⟩
  · refine ⟨subset_rfl, subset_rfl, fun _ inTables outside => absurd inTables outside, ?_⟩
    intro f outside
    have other : f ≠ table := by
      rintro rfl
      exact outside inside
    rw [set_word_word, write, Function.update_of_ne other]

theorem Spaces.set_entry (pte : Pte) :
    SpacesGrow holds (s.setEntry table (px 0 va) pte) roots live live :=
  spaces.grows member (spaces.write_leaf member met pte.raw).1
    (spaces.write_leaf member met pte.raw).2

theorem Spaces.follow_set_entry (pte : Pte) (otherMember : other ∈ roots) (different : other ≠ root)
    {path : List Nat} (short : path.length ≤ 2) :
    follow tableBelow (s.setEntry table (px 0 va) pte).word path other =
      follow tableBelow s.word path other :=
  spaces.follow_other (spaces.write_leaf member met pte.raw).2 member otherMember different short

end

/-- The translations after a leaf entry was written. -/
theorem Spaces.mapping_write_leaf (spaces : Spaces holds s roots live) (member : root ∈ roots)
    (below : va < MAXVA) (met : follow tableBelow s.word [px 2 va, px 1 va] root = some table)
    {pte : Pte} (fits : pte.Fits) (otherMember : other ∈ roots) {va' : Nat} (below' : va' < MAXVA) :
    mapping (s.setEntry table (px 0 va) pte) other va' =
      if other = root ∧ va' / PG_SIZE = va / PG_SIZE then
        if pte.v = 1 then some pte.translation else none
      else mapping s other va' := by
  rw [mapping, mapping, Machine.setEntry]
  by_cases isRoot : other = root
  · subst isRoot
    rw [lookup_write_leaf (spaces.directory other member) below met below', Pte.of_raw_raw fits]
    by_cases samePage : va' / PG_SIZE = va / PG_SIZE
    · have here : other = other ∧ va' / PG_SIZE = va / PG_SIZE := ⟨rfl, samePage⟩
      rw [if_pos samePage]
      split <;> rfl
    · rw [if_neg samePage, if_neg fun both => samePage both.2]
  · rw [if_neg fun both => isRoot both.1,
      spaces.lookup_other (spaces.write_leaf member met pte.raw).2 member otherMember isRoot]

end Leaf

/-! ## Entries and translations -/

/-- The translation a valid leaf entry stands for. -/
theorem mapping_of_entry {dir va table : Nat}
    (met : follow tableBelow s.word [px 2 va, px 1 va] dir = some table)
    (valid : (s.entry table (px 0 va)).v = 1) :
    mapping s dir va = some (s.entry table (px 0 va)).translation := by
  rw [mapping, lookup, met, Option.bind_some, if_pos valid, Option.map_some]

theorem mapping_page {dir va va' : Nat} (below : va < MAXVA) (below' : va' < MAXVA)
    (same : va / PG_SIZE = va' / PG_SIZE) : mapping s dir va = mapping s dir va' := by
  rw [mapping, mapping, lookup_page below below' same]

theorem entry_of_mapping {va : Nat} {t : Translation} (found : mapping s root va = some t) :
    ∃ table, follow tableBelow s.word [px 2 va, px 1 va] root = some table ∧
      (s.entry table (px 0 va)).v = 1 ∧ (s.entry table (px 0 va)).translation = t := by
  rw [mapping, lookup] at found
  cases met : follow tableBelow s.word [px 2 va, px 1 va] root with
  | none =>
    rw [met] at found
    cases found
  | some table =>
    rw [met, Option.bind_some] at found
    split at found
    · rename_i valid
      cases found
      exact ⟨table, rfl, valid, rfl⟩
    · cases found

end

end Mftt
