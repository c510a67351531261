import Mftt.ReadOnlyPages

/-!
# What a page fault is answered with

`do_pagefault` follows the entry that `walk_pages` found before it compares it with NULL, so an
address without tables is a fault of its own. It does not look at the valid bit, the user bit and
the kind of the access: an entry whose frame is in the usable memory and that is not writable gets
the write permission, and the handler returns 0, whether the access is permitted then or not.
-/

namespace Mftt

open RadixTree

section

variable {σ : Type}

/-! ## The handler with the window for user memory -/

/-- `do_pagefault` with what it leaves of `IS_UMEM_ACCESS()`. -/
def doPagefaultWindow (A : PageAllocator σ) (context : FaultContext) (s : Machine σ)
    (causedVa pde : Nat) (fromKernel : Bool) : Except Fault (Int × Machine σ × Bool) :=
  match context.pageDir with
  | none => .ok (-5, s, context.umemAccess)
  | some pageDir =>
    assert (pageDir = pde) "PDE not identical to currently holding process." >>= fun _ =>
      if 0x80000000 ≤ causedVa then .ok (-3, s, context.umemAccess)
      else
        walkPages A s pde causedVa false >>= fun (slot, s) =>
          match slot with
          | none => .error .nullPointer
          | some (table, index) =>
            let pte := s.entry table index
            let pa := pte.phyPageNumber * PG_SIZE
            if ¬ (context.usableStart ≤ pa ∧ pa < context.usableEnd) then
              .ok (-3, s, context.umemAccess)
            else if fromKernel ∧ ¬ context.umemAccess then .ok (0, s, true)
            else if pte.type &&& PTE_TYPE_BIT_W ≠ 0 then .ok (-4, s, context.umemAccess)
            else makeWritable A s table index >>= fun (result, s) =>
              .ok (result, s, context.umemAccess)

/-- Without the window it is `do_pagefault`. -/
theorem do_pagefault_window (A : PageAllocator σ) (context : FaultContext) (s : Machine σ)
    (causedVa pde : Nat) (fromKernel : Bool) :
    (doPagefaultWindow A context s causedVa pde fromKernel >>= fun outcome =>
      .ok (outcome.1, outcome.2.1)) = doPagefault A context s causedVa pde fromKernel := by
  rw [doPagefaultWindow, doPagefault]
  cases context.pageDir with
  | none => rfl
  | some pageDir =>
    rw [bind_assoc]
    congr 1
    funext _
    split
    · rfl
    rw [bind_assoc]
    congr 1
    funext walked
    obtain ⟨slot, s⟩ := walked
    cases slot with
    | none => rfl
    | some place =>
      dsimp only
      repeat' split
      · rfl
      · rfl
      · rfl
      · rw [bind_assoc]
        exact bind_pure _

/-! ## The answer -/

/-- The kind of an access. -/
inductive UserAccess where
  | load
  | store
  | fetch
  deriving DecidableEq

abbrev PTE_TYPE_BIT_R : Nat := 1

abbrev PTE_TYPE_BIT_X : Nat := 4

/-- The permission that an access needs. -/
def UserAccess.bit : UserAccess → Nat
  | .load => PTE_TYPE_BIT_R
  | .store => PTE_TYPE_BIT_W
  | .fetch => PTE_TYPE_BIT_X

/-- A user mapping that permits an access. Writing without reading is no valid type. -/
def Translation.Permits (t : Translation) (access : UserAccess) : Prop :=
  t.u = 1 ∧ t.type &&& PTE_TYPE_RW ≠ PTE_TYPE_BIT_W ∧ t.type &&& access.bit ≠ 0

instance (t : Translation) (access : UserAccess) : Decidable (t.Permits access) :=
  inferInstanceAs (Decidable (_ ∧ _ ∧ _))

/-- A fault is answered: the handler returns; after 0 the address has a user mapping that permits
the access, or the call has opened user memory to the kernel; after a negative value nothing has
changed, neither memory nor the allocator with its counters. -/
structure FaultAnswered (A : PageAllocator σ) (context : FaultContext) (s : Machine σ)
    (va root : Nat) (fromKernel : Bool) (access : UserAccess) : Prop where
  returns : ∃ outcome, doPagefaultWindow A context s va root fromKernel = .ok outcome
  granted : ∀ s' umem, doPagefaultWindow A context s va root fromKernel = .ok (0, s', umem) →
    (∃ t, translate A s' root va = some t ∧ t.Permits access) ∨
      (context.umemAccess = false ∧ umem = true)
  atomic : ∀ result s' umem,
    doPagefaultWindow A context s va root fromKernel = .ok (result, s', umem) → result < 0 → s' = s

/-- What the handler finds in the entry of the address leads to a negative value or to the window,
or the entry is a valid one of the user that permits the access once it is writable. -/
def Answerable (A : PageAllocator σ) (context : FaultContext) (s : Machine σ) (fromKernel : Bool)
    (access : UserAccess) (pte : Pte) : Prop :=
  context.usableStart ≤ pte.phyPageNumber * PG_SIZE ∧
    pte.phyPageNumber * PG_SIZE < context.usableEnd → ¬ (fromKernel ∧ ¬ context.umemAccess) →
  ¬ pte.type &&& PTE_TYPE_BIT_W ≠ 0 → Supplied A s pte.phyPageNumber →
  pte.v = 1 ∧ ({ pte.translation with type := setWrite pte.type } : Translation).Permits access

variable {A : PageAllocator σ} {managed : Set Nat} {holds : σ → Set Nat → Prop}
  {s s' : Machine σ} {roots live : Set Nat} {root va table : Nat} {context : FaultContext}
  {fromKernel : Bool} {access : UserAccess}

/-- Without a page for the copy nothing changes. -/
theorem make_writable_refused (pages : AtomicPages A holds) (held : holds s.pages live)
    {index : Nat} (unsupplied : ¬ Supplied A s (s.entry table index).phyPageNumber) :
    makeWritable A s table index = .ok (-2, s) := by
  obtain ⟨shared, unserved⟩ := not_or.mp unsupplied
  obtain ⟨⟨p, left⟩, allocates⟩ : ∃ got,
      A.pageAlloc s.pages 1 (PAGE_TYPE_INUSE ||| PAGE_TYPE_USER) = .ok got := pages.returns held
  have none : p = 0 := by
    by_contra allocated
    exact unserved ⟨p, left, allocates, allocated⟩
  subst none
  rw [makeWritable]
  rw [if_neg shared, allocates, bind_ok]
  rw [if_pos rfl, pages.unchanged held allocates]

/-- The handler of the current process at a low address looks at the entry that was found. -/
theorem do_pagefault_entry (directory : Directory s root (tables s root))
    (current : context.pageDir = some root) (low : va < 0x80000000) :
    doPagefaultWindow A context s va root fromKernel =
      match follow tableBelow s.word [px 2 va, px 1 va] root with
      | none => .error .nullPointer
      | some table =>
        let pte := s.entry table (px 0 va)
        let pa := pte.phyPageNumber * PG_SIZE
        if ¬ (context.usableStart ≤ pa ∧ pa < context.usableEnd) then
          .ok (-3, s, context.umemAccess)
        else if fromKernel ∧ ¬ context.umemAccess then .ok (0, s, true)
        else if pte.type &&& PTE_TYPE_BIT_W ≠ 0 then .ok (-4, s, context.umemAccess)
        else makeWritable A s table (px 0 va) >>= fun (result, s) =>
          .ok (result, s, context.umemAccess) := by
  obtain ⟨below, outside⟩ := low_outside low
  rw [doPagefaultWindow, current]
  dsimp only
  rw [assert_true _ rfl, if_neg (by omega), walk_pages_read A directory below outside]
  cases follow tableBelow s.word [px 2 va, px 1 va] root with
  | none => rfl
  | some table => rfl

/-- A call that returns a negative value with everything as it was is an answer. -/
theorem answered_of_refused {result : Int} (negative : result < 0)
    (refuses : doPagefaultWindow A context s va root fromKernel =
      .ok (result, s, context.umemAccess)) :
    FaultAnswered A context s va root fromKernel access where
  returns := ⟨_, refuses⟩
  granted := by
    intro s' umem returns
    rw [refuses] at returns
    cases returns
    exact absurd negative (by decide)
  atomic := by
    intro result' s' umem returns _
    rw [refuses] at returns
    cases returns
    rfl

/-- A page that was made writable permits the access if it was valid and permits it writable. -/
theorem grant_permits_iff (laws : FreshPages A managed holds) (spaces : Spaces holds s roots live)
    (member : root ∈ roots) (usable : Usable managed context) (low : va < 0x80000000)
    (met : follow tableBelow s.word [px 2 va, px 1 va] root = some table)
    (inUsable : context.usableStart ≤ (s.entry table (px 0 va)).phyPageNumber * PG_SIZE ∧
      (s.entry table (px 0 va)).phyPageNumber * PG_SIZE < context.usableEnd)
    (makes : makeWritable A s table (px 0 va) = .ok (0, s')) :
    (∃ t, translate A s' root va = some t ∧ t.Permits access) ↔
      (s.entry table (px 0 va)).v = 1 ∧
        ({ (s.entry table (px 0 va)).translation with
          type := setWrite (s.entry table (px 0 va)).type } : Translation).Permits access := by
  obtain ⟨below, outside⟩ := low_outside low
  obtain ⟨live', failed | ⟨-, -, frame, granted⟩⟩ := make_writable_spec laws spaces member below
    met (usable _ inUsable.1 inUsable.2) makes
  · exact absurd failed.1 (by decide)
  have after : translate A s' root va = (mapping s root va).map (Translation.grant frame) := by
    rw [translate_eq A (granted.grows.spaces.directory root member) below outside, ← mapping,
      granted.mappings root member va below, if_pos ⟨rfl, rfl⟩]
  rw [after]
  by_cases valid : (s.entry table (px 0 va)).v = 1
  · rw [mapping_of_entry met valid, Option.map_some]
    simp only [Option.some.injEq, exists_eq_left', valid, true_and]
    rfl
  · rw [mapping, lookup, met]
    simp [valid]

/-- A fault of a process at a user address is answered exactly if there are tables for the address
and what is found in them is answerable. -/
theorem pagefault_answered_iff (laws : FreshPages A managed holds) (pages : AtomicPages A holds)
    (spaces : Spaces holds s roots live) (member : root ∈ roots) (usable : Usable managed context)
    (current : context.pageDir = some root) (low : va < 0x80000000) (fromKernel : Bool)
    (access : UserAccess) :
    FaultAnswered A context s va root fromKernel access ↔
      ∃ table, follow tableBelow s.word [px 2 va, px 1 va] root = some table ∧
        Answerable A context s fromKernel access (s.entry table (px 0 va)) := by
  have call : doPagefaultWindow A context s va root fromKernel = _ :=
    do_pagefault_entry (spaces.directory root member) current low
  cases met : follow tableBelow s.word [px 2 va, px 1 va] root with
  | none =>
    rw [met] at call
    refine iff_of_false (fun answered => ?_) (by simp)
    obtain ⟨outcome, returns⟩ := answered.returns
    rw [call] at returns
    cases returns
  | some table =>
    rw [met] at call
    dsimp only at call
    simp only [Option.some.injEq, exists_eq_left']
    by_cases inUsable : context.usableStart ≤ (s.entry table (px 0 va)).phyPageNumber * PG_SIZE ∧
        (s.entry table (px 0 va)).phyPageNumber * PG_SIZE < context.usableEnd
    swap
    · rw [if_pos inUsable] at call
      exact iff_of_true (answered_of_refused (by decide) call) fun inside => absurd inside inUsable
    rw [if_neg (not_not.mpr inUsable)] at call
    by_cases window : fromKernel ∧ ¬ context.umemAccess
    · rw [if_pos window] at call
      refine iff_of_true ⟨⟨_, call⟩, ?_, ?_⟩ fun _ outside => absurd window outside
      · intro s' umem returns
        rw [call] at returns
        cases returns
        exact .inr ⟨by simpa using window.2, rfl⟩
      · intro result s' umem returns negative
        rw [call] at returns
        cases returns
        rfl
    rw [if_neg window] at call
    by_cases writable : (s.entry table (px 0 va)).type &&& PTE_TYPE_BIT_W ≠ 0
    · rw [if_pos writable] at call
      exact iff_of_true (answered_of_refused (by decide) call)
        fun _ _ readOnly => absurd writable readOnly
    rw [if_neg writable] at call
    by_cases supplied : Supplied A s (s.entry table (px 0 va)).phyPageNumber
    swap
    · rw [make_writable_refused pages spaces.pages supplied, bind_ok] at call
      dsimp only at call
      exact iff_of_true (answered_of_refused (by decide) call)
        fun _ _ _ isSupplied => absurd isSupplied supplied
    obtain ⟨s', makes⟩ := make_writable_supplied supplied
    rw [makes, bind_ok] at call
    dsimp only at call
    have permits : (∃ t, translate A s' root va = some t ∧ t.Permits access) ↔ _ :=
      grant_permits_iff laws spaces member usable low met inUsable makes
    rw [Answerable]
    simp only [inUsable, window, writable, supplied, and_self, not_false_eq_true, forall_const]
    rw [← permits]
    constructor
    · intro answered
      refine (answered.granted s' _ call).resolve_right ?_
      rintro ⟨closed, opened⟩
      rw [closed] at opened
      cases opened
    · intro permitted
      refine ⟨⟨_, call⟩, ?_, ?_⟩
      · intro s₁ umem returns
        rw [call] at returns
        cases returns
        exact .inl permitted
      · intro result s₁ umem returns negative
        rw [call] at returns
        cases returns
        exact absurd negative (by decide)

end

/-! ## Concrete faults -/

theorem bump_atomic : AtomicPages bumpPages BumpHolds where
  returns := by
    intro next live n attr _
    dsimp only [bumpPages]
    split
    · exact ⟨_, rfl⟩
    · exact ⟨_, rfl⟩
  unchanged := by
    intro next live n attr next' held fails
    dsimp only [bumpPages] at fails
    split at fails
    · have none := congrArg Prod.fst (Except.ok.inj fails)
      have positive := held.1
      simp only [PG_SIZE] at none
      omega
    · cases fails
      rfl

/-- A store to a page that was mapped read-only is answered. -/
theorem store_answered :
    FaultAnswered bumpPages faultingProcess readOnlyPage 0 1 false .store := by
  obtain ⟨⟨live, spaces⟩, -⟩ :=
    (read_only_page_run fun _ _ _ _ _ _ => True).spaces bump_fresh no_sysmaps
  refine (pagefault_answered_iff bump_fresh bump_atomic spaces rfl (fun _ _ _ => trivial) rfl
    (by decide) false .store).mpr ⟨3, by decide +kernel, fun _ _ _ _ => ?_⟩
  decide +kernel

/-- An address without tables makes the handler follow NULL. -/
theorem unmapped_unanswered :
    ¬ FaultAnswered bumpPages faultingProcess newDirectory 0 1 false .load := by
  intro answered
  obtain ⟨outcome, returns⟩ := answered.returns
  cases returns

end Mftt
