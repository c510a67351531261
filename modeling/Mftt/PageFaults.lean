import Mftt.AddressSpaces
import Mftt.CopyOnWrite

/-!
# `do_pagefault`

A fault on a valid page without the write permission makes the page writable, in place when
its frame has one reference and in a copy otherwise. Nothing in the entry tells a page that
a copy made read-only from one that was mapped so, and the kind of access is not looked at.
-/

namespace Mftt

open RadixTree

section

variable {σ : Type} {A : PageAllocator σ} {managed : Set Nat} {holds : σ → Set Nat → Prop}
  {s s' : Machine σ} {roots live live' : Set Nat} {root other : Nat}

/-- The write permission. -/
def Translation.Writable (t : Translation) : Prop := t.type &&& PTE_TYPE_BIT_W ≠ 0

/-- The translation with the write permission, in a frame. -/
def Translation.grant (frame : Nat) (t : Translation) : Translation :=
  { t with frame := frame, type := setWrite t.type }

section Fault

variable {va table : Nat} {result : Int}

theorem grant_fits {pte : Pte} (fits : pte.Fits) (frame : Nat) : (pte.grant frame).Fits :=
  { fits with
    phyPageNumber := Nat.mod_lt _ (by norm_num)
    type := Nat.or_lt_two_pow (n := 3) fits.type (by norm_num) }

/-- One page becomes writable, in a frame that is its own or was not handed out. -/
structure Granted (holds : σ → Set Nat → Prop) (s s' : Machine σ) (roots live live' : Set Nat)
    (root va frame : Nat) : Prop where
  grows : SpacesGrow holds s' roots live live'
  mappings : ∀ other ∈ roots, ∀ va', va' < MAXVA → mapping s' other va' =
    if other = root ∧ va' / PG_SIZE = va / PG_SIZE then
      (mapping s root va).map (Translation.grant frame)
    else mapping s other va'
  frame : frame ∉ live ∨ ∀ t, mapping s root va = some t → t.frame = frame

/-- Writing the granted entry. -/
theorem Spaces.set_grant (spaces : Spaces holds s roots live) (member : root ∈ roots)
    (below : va < MAXVA) (met : follow tableBelow s.word [px 2 va, px 1 va] root = some table)
    {frame : Nat} (small : frame < Pte.FRAMES) (otherMember : other ∈ roots) {va' : Nat}
    (below' : va' < MAXVA) :
    mapping (s.setEntry table (px 0 va) ((s.entry table (px 0 va)).grant frame)) other va' =
      if other = root ∧ va' / PG_SIZE = va / PG_SIZE then
        (mapping s root va).map (Translation.grant frame)
      else mapping s other va' := by
  rw [spaces.mapping_write_leaf member below met (grant_fits (entry_fits s table (px 0 va)) frame)
    otherMember below']
  have sameValid : ((s.entry table (px 0 va)).grant frame).v = (s.entry table (px 0 va)).v := rfl
  by_cases here : other = root ∧ va' / PG_SIZE = va / PG_SIZE
  · rw [if_pos here, if_pos here, sameValid]
    by_cases valid : (s.entry table (px 0 va)).v = 1
    · rw [mapping_of_entry met valid, if_pos valid, Pte.grant, Nat.mod_eq_of_lt small]
      rfl
    · rw [if_neg valid, mapping, lookup, met, Option.bind_some, if_neg valid]
      rfl
  · rw [if_neg here, if_neg here]

/-- A page can be made writable: its frame has one reference, or there is a page for a copy. -/
def Supplied (A : PageAllocator σ) (s : Machine σ) (frame : Nat) : Prop :=
  A.reference s.pages (frame * PG_SIZE) = 1 ∨
    ∃ p pages, A.pageAlloc s.pages 1 (PAGE_TYPE_INUSE ||| PAGE_TYPE_USER) = .ok (p, pages) ∧ p ≠ 0

/-- With a page that can be made writable the handler returns 0. -/
theorem make_writable_supplied {index : Nat}
    (supplied : Supplied A s (s.entry table index).phyPageNumber) :
    ∃ s', makeWritable A s table index = .ok (0, s') := by
  rw [makeWritable]
  rcases supplied with alone | ⟨p, pages, allocates, allocated⟩
  · rw [if_pos alone]
    exact ⟨_, rfl⟩
  · split
    · exact ⟨_, rfl⟩
    · rw [allocates, bind_ok, if_neg allocated]
      exact ⟨_, rfl⟩

/-- The entry is left alone for want of a page, or its page becomes writable. -/
theorem make_writable_spec (laws : FreshPages A managed holds)
    (spaces : Spaces holds s roots live) (member : root ∈ roots) (below : va < MAXVA)
    (met : follow tableBelow s.word [px 2 va, px 1 va] root = some table)
    (isManaged : (s.entry table (px 0 va)).phyPageNumber ∈ managed)
    (makes : makeWritable A s table (px 0 va) = .ok (result, s')) :
    ∃ live', (result = -2 ∧ SpacesGrow holds s' roots live live' ∧ s'.word = s.word) ∨
      (result = 0 ∧ Supplied A s (s.entry table (px 0 va)).phyPageNumber ∧
        ∃ frame, Granted holds s s' roots live live' root va frame) := by
  have fits := entry_fits s table (px 0 va)
  rw [makeWritable] at makes
  split at makes
  · rename_i alone
    cases makes
    have own : ∀ t, mapping s root va = some t →
        t.frame = (s.entry table (px 0 va)).phyPageNumber := by
      intro t found
      by_cases valid : (s.entry table (px 0 va)).v = 1
      · rw [mapping_of_entry met valid] at found
        cases found
        rfl
      · rw [mapping, lookup, met, Option.bind_some, if_neg valid] at found
        cases found
    have grows := spaces.set_entry member met
      ((s.entry table (px 0 va)).grant (s.entry table (px 0 va)).phyPageNumber)
    refine ⟨live, .inr ⟨rfl, .inl alone, (s.entry table (px 0 va)).phyPageNumber,
      grows, ?_, .inr own⟩⟩
    intro other otherMember va' below'
    exact spaces.set_grant member below met fits.phyPageNumber otherMember below'
  · obtain ⟨⟨p, pages⟩, allocates, goes⟩ := bind_eq_ok.mp makes
    split at goes
    · rename_i failed
      subst failed
      cases goes
      exact ⟨live, .inl ⟨rfl, spaces.handOut (laws.failed spaces.pages allocates) subset_rfl
        fun _ _ => rfl, rfl⟩⟩
    · rename_i allocated
      cases goes
      obtain ⟨_, fresh, handed⟩ := laws.fresh spaces.pages allocates allocated
      rw [block_frames_one] at fresh handed
      obtain ⟨notLive, small⟩ := fresh (p / PG_SIZE) rfl
      have number : (s.entry table (px 0 va)).phyPageNumber * PG_SIZE / PG_SIZE =
          (s.entry table (px 0 va)).phyPageNumber := Nat.mul_div_cancel _ (by norm_num)
      have counted : holds (decreasePageRef A pages
          ((s.entry table (px 0 va)).phyPageNumber * PG_SIZE)).2 (live ∪ {p / PG_SIZE}) :=
        laws.counted handed (by rw [number]; exact isManaged)
      -- The new page was not handed out before, so no table changes with the copy.
      have kept : ∀ f ∈ live, (Machine.copyPage { s with pages := (decreasePageRef A pages
          ((s.entry table (px 0 va)).phyPageNumber * PG_SIZE)).2 } (p / PG_SIZE)
          (s.entry table (px 0 va)).phyPageNumber).word f = s.word f := by
        intro f inLive
        apply Function.update_of_ne
        rintro rfl
        exact notLive inLive
      have step₁ := spaces.handOut counted Set.subset_union_left kept
      have met₁ := (spaces.follow_kept member kept (by simp)).trans met
      have sameEntry := spaces.entry_kept member kept ⟨_, by simp, met⟩ (px 0 va)
      have step₂ := step₁.spaces.set_entry member met₁
        ((s.entry table (px 0 va)).grant (p / PG_SIZE))
      refine ⟨_, .inr ⟨rfl, .inr ⟨p, pages, allocates, allocated⟩, p / PG_SIZE,
        step₁.trans step₂, ?_, .inl notLive⟩⟩
      intro other otherMember va' below'
      have granted := step₁.spaces.set_grant member below met₁ small otherMember below'
      rw [sameEntry, spaces.mapping_kept member kept, spaces.mapping_kept otherMember kept]
        at granted
      exact granted

variable {context : FaultContext} {fromKernel : Bool}

/-- A fault on a valid page without the write permission, in a frame of usable memory, that
`do_pagefault` can make writable. -/
structure Grants (A : PageAllocator σ) (context : FaultContext) (s : Machine σ) (root va : Nat)
    (fromKernel : Bool) (t : Translation) : Prop where
  current : context.pageDir = some root
  low : va < 0x80000000
  found : mapping s root va = some t
  usable : context.usableStart ≤ t.frame * PG_SIZE ∧ t.frame * PG_SIZE < context.usableEnd
  window : ¬ (fromKernel ∧ ¬ context.umemAccess)
  readOnly : ¬ t.Writable
  supplied : Supplied A s t.frame

theorem low_outside (low : va < 0x80000000) : va < MAXVA ∧ OutsideKernel va := by
  simp only [OutsideKernel, px, KERNEL_INDEX, TABLE_ENTRIES, MAXVA]
  omega

/-- The memory that `do_pagefault` may give out is managed. -/
def Usable (managed : Set Nat) (context : FaultContext) : Prop :=
  ∀ f, context.usableStart ≤ f * PG_SIZE → f * PG_SIZE < context.usableEnd → f ∈ managed

variable (laws : FreshPages A managed holds) (spaces : Spaces holds s roots live)
  (member : root ∈ roots) (usable : Usable managed context)
include laws spaces member usable

/-- A fault that can be granted is granted. -/
theorem pagefault_grants {t : Translation} (grants : Grants A context s root va fromKernel t) :
    ∃ s' live' frame, doPagefault A context s va root fromKernel = .ok (0, s') ∧
      Granted holds s s' roots live live' root va frame := by
  obtain ⟨below, outside⟩ := low_outside grants.low
  obtain ⟨table, met, valid, rfl⟩ := entry_of_mapping grants.found
  have low := grants.low
  have inUsable : context.usableStart ≤ (s.entry table (px 0 va)).phyPageNumber * PG_SIZE ∧
      (s.entry table (px 0 va)).phyPageNumber * PG_SIZE < context.usableEnd := grants.usable
  have readOnly : ¬ (s.entry table (px 0 va)).type &&& PTE_TYPE_BIT_W ≠ 0 := grants.readOnly
  have supplied : Supplied A s (s.entry table (px 0 va)).phyPageNumber := grants.supplied
  have call : doPagefault A context s va root fromKernel = makeWritable A s table (px 0 va) := by
    rw [doPagefault, grants.current]
    dsimp only
    rw [assert_true _ rfl, bind_ok, if_neg (by omega),
      walk_pages_read A (spaces.directory root member) below outside, bind_ok, met]
    dsimp only [Option.map_some]
    rw [if_neg (not_not.mpr inUsable), if_neg grants.window, if_neg readOnly]
  obtain ⟨s', makes⟩ := make_writable_supplied supplied
  obtain ⟨live', failed | ⟨-, -, frame, granted⟩⟩ := make_writable_spec laws spaces member below
    met (usable _ inUsable.1 inUsable.2) makes
  · exact absurd failed.1 (by decide)
  · exact ⟨s', live', frame, call.trans makes, granted⟩

/-- What `do_pagefault` does: it grants a fault that can be granted, and otherwise changes no
translation. -/
theorem pagefault_spec (faults : doPagefault A context s va root fromKernel = .ok (result, s')) :
    ∃ live', (SpacesGrow holds s' roots live live' ∧
        ∀ other ∈ roots, ∀ va', va' < MAXVA → mapping s' other va' = mapping s other va') ∨
      ∃ t frame, Grants A context s root va fromKernel t ∧
        Granted holds s s' roots live live' root va frame := by
  have nothing : SpacesGrow holds s roots live live :=
    ⟨spaces, subset_rfl⟩
  rw [doPagefault] at faults
  split at faults
  · cases faults
    exact ⟨live, .inl ⟨nothing, fun _ _ _ _ => rfl⟩⟩
  · rename_i pageDir current
    obtain ⟨_, same, goes⟩ := bind_eq_ok.mp faults
    rw [assert_eq_ok] at same
    subst same
    split at goes
    · cases goes
      exact ⟨live, .inl ⟨nothing, fun _ _ _ _ => rfl⟩⟩
    · rename_i low
      obtain ⟨below, outside⟩ := low_outside (not_le.mp low)
      rw [walk_pages_read A (spaces.directory pageDir member) below outside, bind_ok] at goes
      cases met : follow tableBelow s.word [px 2 va, px 1 va] pageDir with
      | none =>
        rw [met] at goes
        cases goes
      | some table =>
        rw [met] at goes
        dsimp only [Option.map_some] at goes
        split at goes
        · cases goes
          exact ⟨live, .inl ⟨nothing, fun _ _ _ _ => rfl⟩⟩
        · rename_i inUsable
          split at goes
          · cases goes
            exact ⟨live, .inl ⟨nothing, fun _ _ _ _ => rfl⟩⟩
          · rename_i window
            split at goes
            · cases goes
              exact ⟨live, .inl ⟨nothing, fun _ _ _ _ => rfl⟩⟩
            · rename_i readOnly
              have isUsable := not_not.mp inUsable
              obtain ⟨live', ⟨-, grows, words⟩ | ⟨-, supplied, frame, granted⟩⟩ :=
                make_writable_spec laws spaces member below met
                  (usable _ isUsable.1 isUsable.2) goes
              · exact ⟨live', .inl ⟨grows, fun other otherMember va' _ =>
                  spaces.mapping_kept otherMember (fun f _ => congrFun words f) va'⟩⟩
              · by_cases valid : (s.entry table (px 0 va)).v = 1
                · exact ⟨live', .inr ⟨_, frame, ⟨current, not_le.mp low, mapping_of_entry met valid,
                    isUsable, window, readOnly, supplied⟩, granted⟩⟩
                · have empty : mapping s pageDir va = none := by
                    rw [mapping, lookup, met, Option.bind_some, if_neg valid]
                    rfl
                  refine ⟨live', .inl ⟨granted.grows, fun other otherMember va' below' => ?_⟩⟩
                  rw [granted.mappings other otherMember va' below']
                  split
                  · rename_i here
                    rw [here.1, mapping_page below' below here.2, empty]
                    rfl
                  · rfl

end Fault

end

end Mftt
