import Mftt.AddressSpaces
import Mftt.CopyOnWrite

/-!
# `vm_copy`

Every page of the range has a translation in the source and none in the target; afterwards
both have it, without the write permission, and no other translation has changed. A turn of
the loop may add tables to the target; then it writes one entry there and one in the source.
-/

namespace Mftt

open RadixTree

section

variable {σ : Type} {A : PageAllocator σ} {managed : Set Nat} {holds : σ → Set Nat → Prop}
  {s s' : Machine σ} {roots live live' : Set Nat} {root other : Nat}

/-- The translation without the write permission. -/
def Translation.unwritable (t : Translation) : Translation :=
  { t with type := clearWrite t.type }

/-- The frames a directory maps below `stop` from `a` on are managed. -/
def Managed (managed : Set Nat) (s : Machine σ) (dir a stop : Nat) : Prop :=
  ∀ va, va < MAXVA → a / PG_SIZE ≤ va / PG_SIZE → va / PG_SIZE < stop / PG_SIZE →
    ∀ t, mapping s dir va = some t → t.frame ∈ managed

section VmCopy

variable {dst src a stop turns : Nat}

/-- The outcome of `vm_copy` over the pages from `a` up to `stop`: they had translations in the
source and none in the target, and now both have them without the write permission. -/
structure Copied (holds : σ → Set Nat → Prop) (s s' : Machine σ) (roots live live' : Set Nat)
    (dst src a stop : Nat) : Prop where
  grows : SpacesGrow holds s' roots live live'
  source : ∀ va, va < MAXVA → a / PG_SIZE ≤ va / PG_SIZE → va / PG_SIZE < stop / PG_SIZE →
    ∃ t, mapping s src va = some t ∧ t.u = 1 ∧ mapping s dst va = none
  mappings : ∀ root ∈ roots, ∀ va, va < MAXVA → mapping s' root va =
    if (root = src ∨ root = dst) ∧ a / PG_SIZE ≤ va / PG_SIZE ∧ va / PG_SIZE < stop / PG_SIZE then
      (mapping s src va).map Translation.unwritable
    else mapping s root va

theorem clear_write_lt (type : Nat) : clearWrite type < 8 :=
  Nat.lt_of_le_of_lt Nat.and_le_right (by norm_num)

theorem unwritable_fits {pte : Pte} (fits : pte.Fits) : pte.unwritable.Fits :=
  { fits with type := clear_write_lt _ }

theorem share_fits {cpte pte : Pte} (childFits : cpte.Fits) (fits : pte.Fits) :
    (cpte.share pte).Fits :=
  { childFits with
    phyPageNumber := fits.phyPageNumber
    v := by simp [Pte.share]
    u := fits.u
    g := fits.g
    type := clear_write_lt _ }

section Share

variable {table childTable : Nat}

/-- A page is counted once more. -/
theorem Spaces.increase_ref (laws : FreshPages A managed holds)
    (spaces : Spaces holds s roots live) {frame : Nat} (isManaged : frame ∈ managed) :
    SpacesGrow holds { s with pages := increasePageRef A s.pages (frame * PG_SIZE) } roots live
      live := by
  have number : frame * PG_SIZE / PG_SIZE = frame := Nat.mul_div_cancel _ (by norm_num)
  have counted : holds (increasePageRef A s.pages (frame * PG_SIZE)) live :=
    laws.counted spaces.pages (by rw [number]; exact isManaged)
  exact spaces.handOut counted subset_rfl fun _ _ => rfl

/-- Sharing one entry: first the entry of the target is written, then that of the source. -/
theorem share_entry_spec (laws : FreshPages A managed holds) (spaces : Spaces holds s roots live)
    (dstMember : dst ∈ roots) (srcMember : src ∈ roots) (different : dst ≠ src)
    (below : a < MAXVA) (met : follow tableBelow s.word [px 2 a, px 1 a] src = some table)
    (valid : (s.entry table (px 0 a)).v = 1)
    (isManaged : (s.entry table (px 0 a)).phyPageNumber ∈ managed)
    (childMet : follow tableBelow s.word [px 2 a, px 1 a] dst = some childTable)
    (shares : shareEntry A s table (px 0 a) childTable (px 0 a) = .ok s') :
    SpacesGrow holds s' roots live live ∧ (s.entry table (px 0 a)).u = 1 ∧
      ∀ root ∈ roots, ∀ va, va < MAXVA → mapping s' root va =
        if (root = src ∨ root = dst) ∧ va / PG_SIZE = a / PG_SIZE then
          (mapping s src va).map Translation.unwritable
        else mapping s root va := by
  obtain ⟨_, isUser, done⟩ := bind_eq_ok.mp shares
  have user : (s.entry table (px 0 a)).u = 1 := assert_eq_ok.mp isUser
  cases done
  have step₁ := spaces.increase_ref laws isManaged
  have pteFits := entry_fits s table (px 0 a)
  have childFits := share_fits (entry_fits s childTable (px 0 a)) pteFits
  have step₂ := step₁.spaces.set_entry dstMember childMet
    ((s.entry childTable (px 0 a)).share (s.entry table (px 0 a)))
  have met₂ := (step₁.spaces.follow_set_entry dstMember childMet
    ((s.entry childTable (px 0 a)).share (s.entry table (px 0 a))) srcMember different.symm
    (by simp)).trans met
  have step₃ := step₂.spaces.set_entry srcMember met₂ (s.entry table (px 0 a)).unwritable
  refine ⟨step₁.trans (step₂.trans step₃), user, ?_⟩
  intro root member va belowVa
  have parent := step₂.spaces.mapping_write_leaf srcMember below met₂
    (unwritable_fits pteFits) member belowVa
  have child := step₁.spaces.mapping_write_leaf dstMember below childMet childFits member belowVa
  rw [if_pos (show (s.entry table (px 0 a)).unwritable.v = 1 from valid)] at parent
  rw [if_pos (show ((s.entry childTable (px 0 a)).share (s.entry table (px 0 a))).v = 1 from rfl)]
    at child
  rw [parent, child]
  by_cases samePage : va / PG_SIZE = a / PG_SIZE
  · have found : mapping s src va = some (s.entry table (px 0 a)).translation :=
      (mapping_page belowVa below samePage).trans (mapping_of_entry met valid)
    rw [found]
    by_cases isSrc : root = src
    · rw [if_pos ⟨isSrc, samePage⟩, if_pos ⟨.inl isSrc, samePage⟩]
      rfl
    · by_cases isDst : root = dst
      · rw [if_neg fun both => isSrc both.1, if_pos ⟨isDst, samePage⟩,
          if_pos ⟨.inr isDst, samePage⟩]
        rfl
      · rw [if_neg fun both => isSrc both.1, if_neg fun both => isDst both.1,
          if_neg fun both => both.1.elim isSrc isDst]
        rfl
  · rw [if_neg fun both => samePage both.2, if_neg fun both => samePage both.2,
      if_neg fun both => samePage both.2]
    rfl

end Share

theorem vm_copy_turn_cases {owned : Set Nat} (directory : Directory s src owned)
    (below : a < MAXVA) (outside : OutsideKernel a)
    (copies : vmCopyTurn A s dst src a = .ok s') :
    ∃ table s₁ childTable childIndex,
      follow tableBelow s.word [px 2 a, px 1 a] src = some table ∧
      (s.entry table (px 0 a)).v = 1 ∧
      walkPages A s dst a true = .ok (some (childTable, childIndex), s₁) ∧
      (s₁.entry childTable childIndex).v ≠ 1 ∧
      shareEntry A s₁ table (px 0 a) childTable childIndex = .ok s' := by
  rw [vmCopyTurn, walk_pages_read A directory below outside, bind_ok] at copies
  cases met : follow tableBelow s.word [px 2 a, px 1 a] src with
  | none =>
    rw [met] at copies
    cases copies
  | some table =>
    rw [met] at copies
    dsimp only [Option.map_some] at copies
    split at copies
    · cases copies
    · have valid : (s.entry table (px 0 a)).v = 1 := by
        have fits := (entry_fits s table (px 0 a)).v
        omega
      split at copies
      · cases copies
      · obtain ⟨⟨slot, s₁⟩, walks, goes⟩ := bind_eq_ok.mp copies
        cases slot with
        | none => cases goes
        | some slot =>
          obtain ⟨childTable, childIndex⟩ := slot
          dsimp only at goes
          split at goes
          · cases goes
          · rename_i empty
            exact ⟨table, s₁, childTable, childIndex, rfl, valid, walks, empty, goes⟩

/-- A turn of the loop of `vm_copy` shares one page. -/
theorem vm_copy_turn_spec (laws : FreshPages A managed holds) (spaces : Spaces holds s roots live)
    (dstMember : dst ∈ roots) (srcMember : src ∈ roots) (different : dst ≠ src)
    (below : a < MAXVA) (outside : OutsideKernel a)
    (frames : ∀ t, mapping s src a = some t → t.frame ∈ managed)
    (copies : vmCopyTurn A s dst src a = .ok s') :
    ∃ live', Copied holds s s' roots live live' dst src a (a + PG_SIZE) := by
  obtain ⟨table, s₁, childTable, childIndex, met, valid, walks, empty, shares⟩ :=
    vm_copy_turn_cases (spaces.directory src srcMember) below outside copies
  obtain ⟨owned₁, live₁, view₁, grows₁, lookups, reaches⟩ :=
    walk_pages_spec laws (spaces.view dstMember) outside walks
  obtain ⟨rfl, childMet⟩ := reaches childTable childIndex rfl
  have step₁ := spaces.grows dstMember view₁ grows₁
  have kept : ∀ root ∈ roots, ∀ va, mapping s₁ root va = mapping s root va := by
    intro root member va
    by_cases isDst : root = dst
    · rw [mapping, mapping, isDst, lookups]
    · rw [mapping, mapping, spaces.lookup_other grows₁ dstMember member isDst]
  have inTables : table ∈ tables s src := ⟨_, by simp, met⟩
  have sameEntry : s₁.entry table (px 0 a) = s.entry table (px 0 a) := by
    rw [Machine.entry, Machine.entry,
      spaces.untouched grows₁ dstMember srcMember different.symm table inTables]
  have met₁ := (spaces.follow_other grows₁ dstMember srcMember different.symm (by simp)).trans met
  have found := mapping_of_entry met valid
  obtain ⟨step₂, user, mappings⟩ := share_entry_spec laws step₁.spaces dstMember
    srcMember different below met₁ (by rw [sameEntry]; exact valid)
    (by rw [sameEntry]; exact frames _ found) childMet shares
  rw [sameEntry] at user
  have free : mapping s dst a = none := by
    rw [← kept dst dstMember, mapping, lookup, childMet, Option.bind_some, if_neg empty]
    rfl
  refine ⟨live₁, step₁.trans step₂, ?_, ?_⟩
  · intro va belowVa after before
    have samePage : va / PG_SIZE = a / PG_SIZE := by
      simp only [PG_SIZE] at *
      omega
    rw [mapping_page belowVa below samePage, mapping_page belowVa below samePage]
    exact ⟨_, found, user, free⟩
  · intro root member va belowVa
    rw [mappings root member va belowVa, kept root member va, kept src srcMember va]
    have onePage : (va / PG_SIZE = a / PG_SIZE) =
        (a / PG_SIZE ≤ va / PG_SIZE ∧ va / PG_SIZE < (a + PG_SIZE) / PG_SIZE) := by
      simp only [PG_SIZE, eq_iff_iff]
      omega
    simp only [onePage]

/-- A copy over two adjacent ranges. -/
theorem Copied.trans {s₁ s₂ : Machine σ} {live₁ live₂ : Set Nat} {middle : Nat}
    (dstMember : dst ∈ roots) (srcMember : src ∈ roots)
    (first : Copied holds s s₁ roots live live₁ dst src a middle)
    (second : Copied holds s₁ s₂ roots live₁ live₂ dst src middle stop)
    (lower : a ≤ middle) (upper : middle ≤ stop) :
    Copied holds s s₂ roots live live₂ dst src a stop := by
  have lower' : a / PG_SIZE ≤ middle / PG_SIZE := Nat.div_le_div_right lower
  have upper' : middle / PG_SIZE ≤ stop / PG_SIZE := Nat.div_le_div_right upper
  -- The second copy reads translations the first did not touch.
  have kept : ∀ root ∈ roots, ∀ va, va < MAXVA → middle / PG_SIZE ≤ va / PG_SIZE →
      mapping s₁ root va = mapping s root va := by
    intro root member va below after
    rw [first.mappings root member va below, if_neg (by omega)]
  constructor
  · exact first.grows.trans second.grows
  · intro va below after before
    by_cases inFirst : va / PG_SIZE < middle / PG_SIZE
    · exact first.source va below after inFirst
    · rw [← kept src srcMember va below (by omega), ← kept dst dstMember va below (by omega)]
      exact second.source va below (by omega) before
  · intro root member va below
    rw [second.mappings root member va below]
    by_cases inSecond : middle / PG_SIZE ≤ va / PG_SIZE
    · rw [kept root member va below inSecond, kept src srcMember va below inSecond]
      congr 1
      simp only [eq_iff_iff]
      omega
    · rw [if_neg (by omega), first.mappings root member va below]
      congr 1
      simp only [eq_iff_iff]
      omega

/-- A loop that has reached its end copies nothing. -/
theorem copied_nothing (spaces : Spaces holds s roots live) (reached : ¬ a < stop) :
    Copied holds s s roots live live dst src a stop := by
  have order : stop / PG_SIZE ≤ a / PG_SIZE := Nat.div_le_div_right (not_lt.mp reached)
  constructor
  · exact ⟨spaces, subset_rfl⟩
  · omega
  · intro root member va below
    rw [if_neg (by omega)]

/-- The loop of `vm_copy`: the induction is on the turns left, and each turn copies one page. -/
theorem vm_copy_loop_spec (laws : FreshPages A managed holds)
    (spaces : Spaces holds s roots live) (dstMember : dst ∈ roots) (srcMember : src ∈ roots)
    (different : dst ≠ src) (aligned : a % PG_SIZE = 0) (stopAligned : stop % PG_SIZE = 0)
    (below : stop ≤ MAXVA)
    (outside : ∀ va, a / PG_SIZE ≤ va / PG_SIZE → va / PG_SIZE < stop / PG_SIZE → OutsideKernel va)
    (frames : Managed managed s src a stop)
    (copies : vmCopyLoop A dst src stop turns s a = .ok s') :
    ∃ live', Copied holds s s' roots live live' dst src a stop := by
  induction turns generalizing s a live with
  | zero =>
    rw [vmCopyLoop] at copies
    split at copies
    · cases copies
    · rename_i reached
      cases copies
      exact ⟨live, copied_nothing spaces reached⟩
  | succ turns ih =>
    rw [vmCopyLoop] at copies
    split at copies
    · obtain ⟨s₁, turn, goes⟩ := bind_eq_ok.mp copies
      have next : a / PG_SIZE < (a + PG_SIZE) / PG_SIZE ∧ a + PG_SIZE ≤ stop ∧
          (a + PG_SIZE) / PG_SIZE ≤ stop / PG_SIZE := by
        simp only [PG_SIZE] at *
        omega
      have noWrap : (a + PG_SIZE) % 2 ^ 64 = a + PG_SIZE := by
        simp only [MAXVA] at *
        omega
      rw [noWrap] at goes
      obtain ⟨live₁, copied₁⟩ := vm_copy_turn_spec laws spaces dstMember srcMember different
        (by omega) (outside a (le_refl _) (by omega))
        (frames a (by omega) (le_refl _) (by omega)) turn
      have frames₁ : Managed managed s₁ src (a + PG_SIZE) stop := by
        intro va belowVa after before' t found
        rw [copied₁.mappings src srcMember va belowVa, if_neg (by omega)] at found
        exact frames va belowVa (by omega) before' t found
      obtain ⟨live₂, copied₂⟩ := ih copied₁.grows.spaces (by simp only [PG_SIZE] at *; omega)
        (fun va after before' => outside va (by omega) before') frames₁ goes
      exact ⟨live₂, copied₁.trans dstMember srcMember copied₂ (by omega) next.2.1⟩
    · rename_i reached
      cases copies
      exact ⟨live, copied_nothing spaces reached⟩

theorem round_up_low (low : stop ≤ 0x80000000) : pgRoundUp stop ≤ 0x80000000 := by
  simp only [pgRoundUp, pgRoundDown, PG_SIZE]
  omega

theorem vm_copy_spec (laws : FreshPages A managed holds) (spaces : Spaces holds s roots live)
    (dstMember : dst ∈ roots) (srcMember : src ∈ roots) (different : dst ≠ src) {start : Nat}
    (low : stop ≤ 0x80000000)
    (frames : Managed managed s src (pgRoundDown start) (pgRoundUp stop))
    (copies : vmCopy A s dst src start stop = .ok s') :
    ∃ live', Copied holds s s' roots live live' dst src (pgRoundDown start) (pgRoundUp stop) := by
  have top := round_up_low low
  apply vm_copy_loop_spec laws spaces dstMember srcMember different _ _ _ _ frames copies
  · simp [pgRoundDown]
  · simp [pgRoundUp, pgRoundDown]
  · exact top.trans (by norm_num)
  · simp only [OutsideKernel, px, KERNEL_INDEX, TABLE_ENTRIES, PG_SIZE] at *
    omega

end VmCopy

/-! ## The memory part of `do_fork` -/

section Fork

variable {parent child : Nat} {image stack : Nat × Nat}

/-- The pages from that of `a` to the one before that of `stop`. -/
def pagesOf (a stop : Nat) : Set Nat := {page | a / PG_SIZE ≤ page ∧ page < stop / PG_SIZE}

section Copied

variable {dst src a stop va : Nat} {live' : Set Nat}
  (copied : Copied holds s s' roots live live' dst src a stop)
include copied

/-- A page of the range: the target had no translation. -/
theorem Copied.inside (dstMember : dst ∈ roots) (srcMember : src ∈ roots) (below : va < MAXVA)
    (here : va / PG_SIZE ∈ pagesOf a stop) :
    mapping s dst va = none ∧ ∃ t, mapping s src va = some t ∧ t.u = 1 ∧
      mapping s' src va = some t.unwritable ∧ mapping s' dst va = some t.unwritable := by
  obtain ⟨t, found, user, free⟩ := copied.source va below here.1 here.2
  refine ⟨free, t, found, user, ?_, ?_⟩
  · rw [copied.mappings src srcMember va below, if_pos ⟨.inl rfl, here⟩, found, Option.map_some]
  · rw [copied.mappings dst dstMember va below, if_pos ⟨.inr rfl, here⟩, found, Option.map_some]

/-- Other address spaces and other pages stay. -/
theorem Copied.outside {root : Nat} (member : root ∈ roots) (below : va < MAXVA)
    (away : (root ≠ src ∧ root ≠ dst) ∨ va / PG_SIZE ∉ pagesOf a stop) :
    mapping s' root va = mapping s root va := by
  rw [copied.mappings root member va below, if_neg]
  rintro ⟨either, here⟩
  rcases away with other | outside
  · exact either.elim other.1 other.2
  · exact outside here

theorem Copied.frames_managed {top : Nat} (srcMember : src ∈ roots)
    (frames : Managed managed s src 0 top) : Managed managed s' src 0 top := by
  intro va below low before t found
  rw [copied.mappings src srcMember va below] at found
  split at found
  · obtain ⟨t', found', rfl⟩ := Option.map_eq_some_iff.mp found
    exact frames va below low before t' found'
  · exact frames va below low before t found

end Copied

theorem Managed.range {dir start stop : Nat} (frames : Managed managed s dir 0 0x80000000)
    (low : stop ≤ 0x80000000) : Managed managed s dir (pgRoundDown start) (pgRoundUp stop) :=
  fun va below _ before => frames va below (Nat.zero_le _)
    (before.trans_le (Nat.div_le_div_right (round_up_low low)))

/-- The page of an address is copied by `do_fork`. -/
def Inherited (image stack : Nat × Nat) (va : Nat) : Prop :=
  va / PG_SIZE ∈ pagesOf (pgRoundDown image.1) (pgRoundUp image.2) ∨
    va / PG_SIZE ∈ pagesOf (pgRoundDown stack.1) (pgRoundUp stack.2)

/-- The outcome of the memory part of `do_fork`: the child has the translations of image and
stack, and they have lost the write permission in both address spaces. -/
structure Forked (holds : σ → Set Nat → Prop) (s s' : Machine σ) (roots live live' : Set Nat)
    (parent child : Nat) (image stack : Nat × Nat) : Prop where
  spaces : Spaces holds s' (insert child roots) live'
  wider : live ⊆ live'
  fresh : child ∉ live
  inherited : ∀ va, va < MAXVA → Inherited image stack va → ∃ t, mapping s parent va = some t ∧
    t.u = 1 ∧ mapping s' parent va = some t.unwritable ∧ mapping s' child va = some t.unwritable
  others : ∀ root ∈ roots, ∀ va, va < MAXVA → (root ≠ parent ∨ ¬ Inherited image stack va) →
    mapping s' root va = mapping s root va

variable {sysmaps : List MemSysmap} (laws : FreshPages A managed holds)
  (avoid : SysmapsAvoid sysmaps) (spaces : Spaces holds s roots live)
include laws avoid spaces

/-- A new directory is a new address space; the others stay. -/
theorem Spaces.alloc_page_dir (allocates : allocPageDir A s sysmaps = .ok (some child, s')) :
    ∃ live', Spaces holds s' (insert child roots) live' ∧ live ⊆ live' ∧ child ∉ live ∧
      ∀ f ∈ live, s'.word f = s.word f := by
  obtain ⟨owned', live', view, wider, fresh, words⟩ :=
    alloc_page_dir_spec laws avoid spaces.pages allocates
  have root : child ∈ owned' := tables_subset view.directory (root_mem_tables s' child)
  refine ⟨live', spaces.join view wider fresh words, wider, fresh child root, fun f inLive => ?_⟩
  exact words f fun inOwned => fresh f inOwned inLive

/-- When `do_fork` has a directory for the child, image and stack are shared with it and nothing
else changes.

Proof: the new directory leaves all translations as they are, and the two calls of `vm_copy` are
over ranges without a common page, since the second finds the child without a translation. -/
theorem fork_space_spec (member : parent ∈ roots) (imageLow : image.2 ≤ 0x80000000)
    (stackLow : stack.2 ≤ 0x80000000) (frames : Managed managed s parent 0 0x80000000)
    (forks : forkSpace A s sysmaps parent image stack = .ok (some child, s')) :
    ∃ live', Forked holds s s' roots live live' parent child image stack := by
  obtain ⟨⟨made, s₁⟩, allocates, goes⟩ := bind_eq_ok.mp forks
  cases made with
  | none => cases goes
  | some made =>
    obtain ⟨s₂, copiesImage, goes₂⟩ := bind_eq_ok.mp goes
    obtain ⟨s₃, copiesStack, done⟩ := bind_eq_ok.mp goes₂
    cases done
    obtain ⟨live₁, spaces₁, wider₁, notLive, words₁⟩ :=
      spaces.alloc_page_dir laws avoid allocates
    have parentIn : parent ∈ insert child roots := Set.mem_insert_of_mem _ member
    have childIn : child ∈ insert child roots := Set.mem_insert ..
    have notChild : ∀ root ∈ roots, root ≠ child := by
      rintro root rootIn rfl
      exact notLive (spaces.handed root rootIn (root_mem_tables s root))
    have kept₁ : ∀ root ∈ roots, ∀ va, mapping s₁ root va = mapping s root va :=
      fun root rootIn va => spaces.mapping_kept rootIn words₁ va
    have frames₁ : Managed managed s₁ parent 0 0x80000000 := by
      intro va below low before t found
      rw [kept₁ parent member] at found
      exact frames va below low before t found
    obtain ⟨live₂, copied₂⟩ := vm_copy_spec laws spaces₁ childIn parentIn
      (notChild parent member).symm imageLow (frames₁.range imageLow) copiesImage
    have frames₂ := copied₂.frames_managed parentIn frames₁
    obtain ⟨live₃, copied₃⟩ := vm_copy_spec laws copied₂.grows.spaces childIn parentIn
      (notChild parent member).symm stackLow (frames₂.range stackLow) copiesStack
    have apart : ∀ va, va < MAXVA →
        va / PG_SIZE ∈ pagesOf (pgRoundDown image.1) (pgRoundUp image.2) →
        va / PG_SIZE ∉ pagesOf (pgRoundDown stack.1) (pgRoundUp stack.2) := by
      intro va below inImage inStack
      obtain ⟨-, t, -, -, -, found⟩ := copied₂.inside childIn parentIn below inImage
      cases found.symm.trans (copied₃.inside childIn parentIn below inStack).1
    refine ⟨live₃, copied₃.grows.spaces,
      wider₁.trans (copied₂.grows.wider.trans copied₃.grows.wider), notLive, ?_, ?_⟩
    · rintro va below (inImage | inStack)
      · obtain ⟨-, t, found, user, ofParent, ofChild⟩ :=
          copied₂.inside childIn parentIn below inImage
        have outside := apart va below inImage
        exact ⟨t, (kept₁ parent member va).symm.trans found, user,
          (copied₃.outside parentIn below (.inr outside)).trans ofParent,
          (copied₃.outside childIn below (.inr outside)).trans ofChild⟩
      · obtain ⟨-, t, found, shared⟩ := copied₃.inside childIn parentIn below inStack
        have outside := copied₂.outside parentIn below
          (.inr fun inImage => apart va below inImage inStack)
        exact ⟨t, by rw [← kept₁ parent member, ← outside, found], shared⟩
    · intro root rootIn va below away
      have rootIn' : root ∈ insert child roots := Set.mem_insert_of_mem _ rootIn
      rw [copied₃.outside rootIn' below, copied₂.outside rootIn' below, kept₁ root rootIn va]
      · exact away.imp (fun other => ⟨other, notChild root rootIn⟩) fun outside inImage =>
          outside (.inl inImage)
      · exact away.imp (fun other => ⟨other, notChild root rootIn⟩) fun outside inStack =>
          outside (.inr inStack)

end Fork

end

end Mftt
