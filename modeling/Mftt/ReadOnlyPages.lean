import Mftt.PageFaults
import Mftt.PageMapRuns
import Mftt.VmCopy

/-!
# Pages mapped read-only

A segment is mapped without the write permission; forks copy its entries, processes load and
store, and page faults arrive on any page. The entries keep the permission they have until a
fault on one of them is granted, and `do_pagefault` grants every fault that it can: it sees
neither the permission the page was mapped with nor the kind of access.
-/

namespace Mftt

section

variable {σ : Type}

/-- A fault on a page of the segment that would be granted does not occur. -/
def Spared (A : PageAllocator σ) (s : Machine σ) (derived : Set (Nat × Nat))
    (context : FaultContext) (root va : Nat) (fromKernel : Bool) : Prop :=
  (root, va / PG_SIZE) ∈ derived → ∀ t, ¬ Grants A context s root va fromKernel t

/-- Whether a fault may occur. -/
abbrev FaultRule (σ : Type) :=
  Machine σ → Set (Nat × Nat) → FaultContext → Nat → Nat → Bool → Prop

/-- The states after a segment was mapped without the write permission: directories, and the
entries that stem from the segment, as pairs of a directory and a page. -/
inductive SegmentRun (A : PageAllocator σ) (managed : Set Nat) (holds : σ → Set Nat → Prop)
    (sysmaps : List MemSysmap) (rule : FaultRule σ) :
    Machine σ → Set Nat → Set (Nat × Nat) → Prop where
  | load {s s' : Machine σ} {roots live : Set Nat} {root va pa size type : Nat}
      (spaces : Spaces holds s roots live) (member : root ∈ roots)
      (range : AddressRange va size) (nonempty : 1 ≤ size)
      (readOnly : type &&& PTE_TYPE_BIT_W = 0)
      (maps : mapPages A s root va pa size type true false = .ok (0, s')) :
      SegmentRun A managed holds sysmaps rule s' roots
        {entry | entry.1 = root ∧ va / PG_SIZE ≤ entry.2 ∧ entry.2 ≤ (va + size - 1) / PG_SIZE}
  | fork {s s' : Machine σ} {roots : Set Nat} {derived : Set (Nat × Nat)} {parent child : Nat}
      {image stack : Nat × Nat} (run : SegmentRun A managed holds sysmaps rule s roots derived)
      (member : parent ∈ roots) (low : image.2 ≤ 0x80000000 ∧ stack.2 ≤ 0x80000000)
      (frames : Managed managed s parent 0 0x80000000)
      (forks : forkSpace A s sysmaps parent image stack = .ok (some child, s')) :
      SegmentRun A managed holds sysmaps rule s' (insert child roots)
        (derived ∪ {entry | entry.1 = child ∧ (parent, entry.2) ∈ derived ∧
          (entry.2 ∈ pagesOf (pgRoundDown image.1) (pgRoundUp image.2) ∨
            entry.2 ∈ pagesOf (pgRoundDown stack.1) (pgRoundUp stack.2))})
  | fault {s s' : Machine σ} {roots : Set Nat} {derived : Set (Nat × Nat)}
      {context : FaultContext} {root va : Nat} {fromKernel : Bool} {result : Int}
      (run : SegmentRun A managed holds sysmaps rule s roots derived)
      (member : root ∈ roots) (usable : Usable managed context)
      (meets : rule s derived context root va fromKernel)
      (faults : doPagefault A context s va root fromKernel = .ok (result, s')) :
      SegmentRun A managed holds sysmaps rule s' roots derived
  | access {s s' : Machine σ} {roots : Set Nat} {derived : Set (Nat × Nat)} {live : Set Nat}
      (run : SegmentRun A managed holds sysmaps rule s roots derived)
      (held : holds s'.pages live) (handed : ∀ root ∈ roots, tables s root ⊆ live)
      (words : ∀ root ∈ roots, ∀ f ∈ tables s root, s'.word f = s.word f) :
      SegmentRun A managed holds sysmaps rule s' roots derived

/-- No entry that stems from the segment has the write permission. -/
def ReadOnly (s : Machine σ) (derived : Set (Nat × Nat)) : Prop :=
  ∀ root va, va < MAXVA → (root, va / PG_SIZE) ∈ derived →
    ∀ t, mapping s root va = some t → ¬ t.Writable

variable {A : PageAllocator σ} {managed : Set Nat} {holds : σ → Set Nat → Prop}
  {sysmaps : List MemSysmap} {rule : FaultRule σ} {s s' : Machine σ} {roots live : Set Nat}
  {derived : Set (Nat × Nat)}

theorem unwritable_not_writable (t : Translation) : ¬ t.unwritable.Writable := by
  rw [Translation.Writable, Translation.unwritable, clearWrite, Nat.and_assoc]
  exact not_not.mpr (Nat.and_zero _)

theorem grant_writable (t : Translation) (frame : Nat) : (t.grant frame).Writable := by
  intro none
  have bit := congrArg (Nat.testBit · 1) none
  rw [Translation.grant, setWrite, Nat.testBit_and, Nat.testBit_or,
    show PTE_TYPE_BIT_W.testBit 1 = true by decide, Bool.or_true] at bit
  cases bit

theorem low_bits_read_only {type : Nat} (readOnly : type &&& PTE_TYPE_BIT_W = 0) :
    type % 8 &&& PTE_TYPE_BIT_W = 0 := by
  rw [show (8 : Nat) = 2 ^ 3 by norm_num, ← Nat.and_two_pow_sub_one_eq_mod, Nat.and_assoc]
  exact readOnly

/-- In every state of a run the directories are apart, and the entries of the segment belong
to them. -/
theorem SegmentRun.spaces (laws : FreshPages A managed holds) (avoid : SysmapsAvoid sysmaps)
    (run : SegmentRun A managed holds sysmaps rule s roots derived) :
    (∃ live, Spaces holds s roots live) ∧ ∀ entry ∈ derived, entry.1 ∈ roots := by
  induction run with
  | load spaces member range nonempty readOnly maps =>
    obtain ⟨owned', live', view', grows, -⟩ :=
      map_pages_spec laws (spaces.view member) range nonempty maps
    refine ⟨⟨live', spaces.grow view' grows member⟩, ?_⟩
    rintro ⟨root, page⟩ ⟨rfl, -⟩
    exact member
  | fork run member low frames forks ih =>
    obtain ⟨⟨live, spaces⟩, inside⟩ := ih
    obtain ⟨live', forked⟩ := fork_space_spec laws avoid spaces member low.1 low.2 frames forks
    refine ⟨⟨live', forked.spaces⟩, ?_⟩
    rintro entry (old | ⟨rfl, -⟩)
    · exact Set.mem_insert_of_mem _ (inside entry old)
    · exact Set.mem_insert ..
  | fault run member usable meets faults ih =>
    obtain ⟨⟨live, spaces⟩, inside⟩ := ih
    obtain ⟨live', ⟨grows, -⟩ | ⟨_, _, -, granted⟩⟩ :=
      pagefault_spec laws spaces member usable faults
    · exact ⟨⟨live', grows.spaces⟩, inside⟩
    · exact ⟨⟨live', granted.grows.spaces⟩, inside⟩
  | access run held handed words ih =>
    obtain ⟨⟨live, spaces⟩, inside⟩ := ih
    exact ⟨⟨_, spaces.congr held handed words⟩, inside⟩

theorem ReadOnly.fault (laws : FreshPages A managed holds) (spaces : Spaces holds s roots live)
    (inside : ∀ entry ∈ derived, entry.1 ∈ roots) (readOnly : ReadOnly s derived)
    {context : FaultContext} {root va : Nat} {fromKernel : Bool} {result : Int}
    (member : root ∈ roots) (usable : Usable managed context)
    (spared : Spared A s derived context root va fromKernel)
    (faults : doPagefault A context s va root fromKernel = .ok (result, s')) :
    ReadOnly s' derived := by
  intro other va' below isDerived t found
  have otherIn := inside _ isDerived
  obtain ⟨live', ⟨-, same⟩ | ⟨t', frame, grants, granted⟩⟩ :=
    pagefault_spec laws spaces member usable faults
  · rw [same other otherIn va' below] at found
    exact readOnly other va' below isDerived t found
  · rw [granted.mappings other otherIn va' below, if_neg] at found
    · exact readOnly other va' below isDerived t found
    · rintro ⟨rfl, samePage⟩
      rw [samePage] at isDerived
      exact spared isDerived t' grants

/-- While no granted fault hits the segment, it stays read-only: one case per step. -/
theorem SegmentRun.read_only (laws : FreshPages A managed holds) (avoid : SysmapsAvoid sysmaps)
    (run : SegmentRun A managed holds sysmaps (Spared A) s roots derived) :
    ReadOnly s derived := by
  induction run with
  | @load s s' roots live root va pa size type spaces member range nonempty readOnly maps =>
    intro other va' below isDerived t found
    obtain ⟨rfl, after, before⟩ := isDerived
    obtain ⟨-, -, -, -, sent⟩ := map_pages_spec laws (spaces.view member) range nonempty maps
    rw [mapping, (sent rfl va' below).2, spanTo, if_pos] at found
    · cases found
      exact not_not.mpr (low_bits_read_only readOnly)
    · rw [lastPage, round_down_page, round_down_page]
      exact ⟨after, before⟩
  | @fork s s' roots derived parent child image stack run member low frames forks ih =>
    obtain ⟨⟨live, spaces⟩, inside⟩ := run.spaces laws avoid
    obtain ⟨live', forked⟩ := fork_space_spec laws avoid spaces member low.1 low.2 frames forks
    rintro root va below (old | ⟨rfl, -, copied⟩) t found
    · by_cases touched : root = parent ∧ Inherited image stack va
      · obtain ⟨rfl, inherited⟩ := touched
        obtain ⟨t', -, -, now, -⟩ := forked.inherited va below inherited
        rw [now] at found
        cases found
        exact unwritable_not_writable t'
      · rw [forked.others root (inside _ old) va below (by tauto)] at found
        exact ih root va below old t found
    · obtain ⟨t', -, -, -, now⟩ := forked.inherited va below copied
      rw [now] at found
      cases found
      exact unwritable_not_writable t'
  | fault run member usable meets faults ih =>
    obtain ⟨⟨live, spaces⟩, inside⟩ := run.spaces laws avoid
    exact ih.fault laws spaces inside member usable meets faults
  | access run held handed words ih =>
    obtain ⟨⟨live, spaces⟩, inside⟩ := run.spaces laws avoid
    intro root va below isDerived t found
    have member := inside _ isDerived
    rw [mapping, lookup_congr (spaces.directory root member) (words root member)] at found
    exact ih root va below isDerived t found

/-- In a run in which no granted fault hits the segment, every entry that stems from it is
read-only. The next fault keeps this exactly when it is spared too, and a fault that can be
granted makes its page writable. -/
theorem segment_read_only_iff (laws : FreshPages A managed holds) (avoid : SysmapsAvoid sysmaps)
    (run : SegmentRun A managed holds sysmaps (Spared A) s roots derived) :
    ReadOnly s derived ∧
    ∀ context root va fromKernel, root ∈ roots → Usable managed context →
      (∀ result s', doPagefault A context s va root fromKernel = .ok (result, s') →
        (ReadOnly s' derived ↔ Spared A s derived context root va fromKernel)) ∧
      ∀ t, Grants A context s root va fromKernel t →
        ∃ s' t', doPagefault A context s va root fromKernel = .ok (0, s') ∧
          mapping s' root va = some t' ∧ t'.Writable := by
  obtain ⟨⟨live, spaces⟩, inside⟩ := run.spaces laws avoid
  have readOnly := run.read_only laws avoid
  refine ⟨readOnly, fun context root va fromKernel member usable => ?_⟩
  have regained : ∀ t, Grants A context s root va fromKernel t →
      ∃ s' t', doPagefault A context s va root fromKernel = .ok (0, s') ∧
        mapping s' root va = some t' ∧ t'.Writable := by
    intro t grants
    obtain ⟨s', live', frame, faults, granted⟩ :=
      pagefault_grants laws spaces member usable grants
    refine ⟨s', t.grant frame, faults, ?_, grant_writable t frame⟩
    rw [granted.mappings root member va (low_outside grants.low).1, if_pos ⟨rfl, rfl⟩,
      grants.found, Option.map_some]
  refine ⟨fun result s' faults => ⟨?_, ?_⟩, regained⟩
  · intro readOnly' isDerived t grants
    obtain ⟨s'', t', faults', found, writable⟩ := regained t grants
    cases faults.symm.trans faults'
    exact readOnly' root va (low_outside grants.low).1 isDerived t' found writable
  · intro spared
    exact readOnly.fault laws spaces inside member usable spared faults

end

/-! ## A page of a read-only segment -/

/-- The directory in frame 1 with page 0 mapped read-only to frame 16. -/
def readOnlyPage : Machine Nat :=
  landed (mapPages bumpPages newDirectory 1 0 0x10000 1 PTE_TYPE_RO true false) newDirectory

/-- The process of this directory is current, and all memory below 4 GiB is usable. -/
def faultingProcess : FaultContext where
  usableStart := 0
  usableEnd := 2 ^ 32
  pageDir := some 1
  umemAccess := false

/-- The entries of the segment in this directory. -/
def segmentPage : Set (Nat × Nat) :=
  {entry | entry.1 = 1 ∧ 0 / PG_SIZE ≤ entry.2 ∧ entry.2 ≤ (0 + 1 - 1) / PG_SIZE}

theorem read_only_page_run (rule : FaultRule Nat) :
    SegmentRun bumpPages Set.univ BumpHolds [] rule readOnlyPage {1} segmentPage := by
  obtain ⟨live, view⟩ := new_directory_run.view bump_fresh no_sysmaps
  exact .load view.spaces rfl ⟨by decide, .inl (by decide)⟩ le_rfl (by decide)
    (eq_landed (by decide +kernel))

/-- After a fork; the directory of the child is in frame 4. -/
def sharedPage : Machine Nat :=
  landed (forkSpace bumpPages readOnlyPage [] 1 (0, 0x1000) (0, 0)) readOnlyPage

/-- The segment is read-only in both processes after it was mapped, the process forked, and the
kernel faulted on the page with the window for user memory closed. -/
theorem read_only_page_shared :
    mapping sharedPage 4 0 = some ⟨16, PTE_TYPE_RO, 1, 0⟩ ∧
    returned (doPagefault bumpPages faultingProcess sharedPage 0 1 true) = some 0 ∧
    ReadOnly (landed (doPagefault bumpPages faultingProcess sharedPage 0 1 true) sharedPage)
      (segmentPage ∪ {entry | entry.1 = 4 ∧ (1, entry.2) ∈ segmentPage ∧
        (entry.2 ∈ pagesOf (pgRoundDown 0) (pgRoundUp 0x1000) ∨
          entry.2 ∈ pagesOf (pgRoundDown 0) (pgRoundUp 0))}) := by
  have faults : returned (doPagefault bumpPages faultingProcess sharedPage 0 1 true) = some 0 := by
    decide +kernel
  have forks : forkSpace bumpPages readOnlyPage [] 1 (0, 0x1000) (0, 0) =
      .ok (some 4, sharedPage) := eq_landed (by decide +kernel)
  have forked := SegmentRun.fork (read_only_page_run (Spared bumpPages)) rfl (by decide)
    (fun _ _ _ _ _ _ => trivial) forks
  have returns : doPagefault bumpPages faultingProcess sharedPage 0 1 true =
      .ok (0, landed (doPagefault bumpPages faultingProcess sharedPage 0 1 true) sharedPage) :=
    eq_landed faults
  have spared := SegmentRun.fault forked (.inr rfl) (fun _ _ _ => trivial)
    (fun _ t grants => grants.window ⟨rfl, by decide⟩) returns
  exact ⟨by decide +kernel, faults, (segment_read_only_iff bump_fresh no_sysmaps spared).1⟩

/-- A store to the page is granted. -/
theorem store_makes_writable :
    SegmentRun bumpPages Set.univ BumpHolds [] (fun _ _ _ _ _ _ => True) readOnlyPage {1}
      segmentPage ∧
    mapping readOnlyPage 1 0 = some ⟨16, PTE_TYPE_RO, 1, 0⟩ ∧
    returned (doPagefault bumpPages faultingProcess readOnlyPage 0 1 false) = some 0 ∧
    mapping (landed (doPagefault bumpPages faultingProcess readOnlyPage 0 1 false) readOnlyPage)
      1 0 = some ⟨16, PTE_TYPE_RW, 1, 0⟩ ∧
    ¬ ReadOnly (landed (doPagefault bumpPages faultingProcess readOnlyPage 0 1 false) readOnlyPage)
      segmentPage := by
  have after : mapping (landed (doPagefault bumpPages faultingProcess readOnlyPage 0 1 false)
      readOnlyPage) 1 0 = some ⟨16, PTE_TYPE_RW, 1, 0⟩ := by decide +kernel
  refine ⟨read_only_page_run _, ?_, ?_, after, fun readOnly => ?_⟩
  · decide +kernel
  · decide +kernel
  · exact readOnly 1 0 (by decide) ⟨rfl, by decide, by decide⟩ _ after
      (show PTE_TYPE_RW &&& PTE_TYPE_BIT_W ≠ 0 by decide)

end Mftt
