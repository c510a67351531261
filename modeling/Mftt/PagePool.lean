import Mftt.PageTables

/-!
# A pool of pages

An allocator of pages that hands out the frames in order, takes frames back one by one and
hands out again what it took back. It keeps the laws of `FreshPages` and stands for the
buddy allocator where a run is followed on fixed inputs.
-/

namespace Mftt

/-- The next frame that was never handed out, the frames taken back, and the references. -/
structure Pool where
  next : Nat
  freed : List Nat
  refs : Nat → Nat

/-- The pool after a block of frames that were never handed out was taken. -/
def Pool.advance (pool : Pool) (count : Nat) : Pool :=
  { pool with
    next := pool.next + count
    refs := fun f => if pool.next ≤ f ∧ f < pool.next + count then 1 else pool.refs f }

/-- Hand out frames that were never handed out. -/
def Pool.extend (pool : Pool) (n : Nat) : Nat × Pool :=
  if pool.next + 2 ^ blockOrder n ≤ Pte.FRAMES then
    (pool.next * PG_SIZE, pool.advance (2 ^ blockOrder n))
  else (0, pool)

/-- Single frames are taken from those given back first. -/
def poolPages : PageAllocator Pool where
  pageAlloc pool n _ :=
    match pool.freed with
    | frame :: rest =>
      if n = 1 then
        .ok (frame * PG_SIZE,
          { pool with freed := rest, refs := Function.update pool.refs frame 1 })
      else .ok (pool.extend n)
    | [] => .ok (pool.extend n)
  pageFree pool p _ :=
    if 0 < p / PG_SIZE ∧ p / PG_SIZE < pool.next ∧ p / PG_SIZE ∉ pool.freed then
      .ok (0, { pool with freed := p / PG_SIZE :: pool.freed })
    else .ok (0, pool)
  reference pool p := pool.refs (p / PG_SIZE)
  setReference pool p count := { pool with refs := Function.update pool.refs (p / PG_SIZE) count }

/-- The frames handed out are those below the next one that were not given back. -/
structure PoolHolds (pool : Pool) (live : Set Nat) : Prop where
  exact : live = {f | 0 < f ∧ f < pool.next ∧ f ∉ pool.freed}
  positive : 0 < pool.next
  bounded : pool.next ≤ Pte.FRAMES
  below : ∀ f ∈ pool.freed, 0 < f ∧ f < pool.next
  nodup : pool.freed.Nodup

variable {pool : Pool} {live : Set Nat}

theorem PoolHolds.freed_not_live (held : PoolHolds pool live) {f : Nat} (given : f ∈ pool.freed) :
    f ∉ live := by
  rw [held.exact]
  exact fun inLive => inLive.2.2 given

/-- What it means that frames were handed out of a pool. -/
structure HandsOut (pool : Pool) (live : Set Nat) (n : Nat) (got : Nat × Pool) : Prop where
  failed : got.1 = 0 → PoolHolds got.2 live
  aligned : got.1 ≠ 0 → got.1 % PG_SIZE = 0
  fresh : got.1 ≠ 0 → ∀ f ∈ blockFrames got.1 n, f ∉ live ∧ f < Pte.FRAMES
  held : got.1 ≠ 0 → PoolHolds got.2 (live ∪ blockFrames got.1 n)

/-- The frames handed out after a block was taken. -/
theorem pool_advance (held : PoolHolds pool live) {count : Nat}
    (fits : pool.next + count ≤ Pte.FRAMES) :
    PoolHolds (pool.advance count) (live ∪ {f | pool.next ≤ f ∧ f < pool.next + count}) where
  exact := by
    have positive := held.positive
    ext f
    simp only [held.exact]
    constructor
    · rintro (⟨set, small, kept⟩ | ⟨lower, upper⟩)
      · exact ⟨set, small.trans_le (Nat.le_add_right ..), kept⟩
      · exact ⟨positive.trans_le lower, upper, fun given => (held.below f given).2.not_ge lower⟩
    · rintro ⟨set, small, kept⟩
      by_cases old : f < pool.next
      · exact .inl ⟨set, old, kept⟩
      · exact .inr ⟨not_lt.mp old, small⟩
  positive := held.positive.trans_le (Nat.le_add_right ..)
  bounded := fits
  below f given :=
    ⟨(held.below f given).1, (held.below f given).2.trans_le (Nat.le_add_right ..)⟩
  nodup := held.nodup

theorem pool_extend (held : PoolHolds pool live) (n : Nat) :
    HandsOut pool live n (pool.extend n) := by
  rw [Pool.extend]
  split
  · rename_i fits
    have number : pool.next * PG_SIZE / PG_SIZE = pool.next := Nat.mul_div_cancel _ (by norm_num)
    have block : blockFrames (pool.next * PG_SIZE) n =
        {f | pool.next ≤ f ∧ f < pool.next + 2 ^ blockOrder n} := by
      rw [blockFrames, number]
    have set : pool.next * PG_SIZE ≠ 0 := Nat.mul_ne_zero held.positive.ne' (by norm_num)
    constructor
    · exact fun zero => absurd zero set
    · exact fun _ => Nat.mul_mod_left ..
    · intro _ f member
      rw [block] at member
      refine ⟨fun inLive => ?_, member.2.trans_le fits⟩
      rw [held.exact] at inLive
      exact inLive.2.1.not_ge member.1
    · intro _
      rw [block]
      exact pool_advance held fits
  · exact ⟨fun _ => held, fun set => absurd rfl set, fun set => absurd rfl set,
      fun set => absurd rfl set⟩

theorem pool_alloc (held : PoolHolds pool live) {n attr : Nat} {got : Nat × Pool}
    (allocates : poolPages.pageAlloc pool n attr = .ok got) : HandsOut pool live n got := by
  dsimp only [poolPages] at allocates
  cases freed : pool.freed with
  | nil =>
    rw [freed] at allocates
    cases allocates
    exact pool_extend held n
  | cons frame rest =>
    rw [freed] at allocates
    dsimp only at allocates
    split at allocates
    · rename_i one
      subst one
      cases allocates
      have number : frame * PG_SIZE / PG_SIZE = frame := Nat.mul_div_cancel _ (by norm_num)
      have inPool := held.below frame (by rw [freed]; exact List.mem_cons_self)
      have bounded := held.bounded
      have distinct := held.nodup
      rw [freed, List.nodup_cons] at distinct
      have block : blockFrames (frame * PG_SIZE) 1 = {frame} := by
        rw [block_frames_one, number]
      constructor
      · intro zero
        simp only [PG_SIZE] at zero
        omega
      · intro _
        exact Nat.mul_mod_left ..
      · intro _ f member
        rw [block] at member
        cases member
        refine ⟨?_, by omega⟩
        rw [held.exact, freed]
        exact fun both => both.2.2 List.mem_cons_self
      · intro _
        constructor
        · ext f
          simp only [held.exact, freed, block, List.mem_cons, not_or]
          constructor
          · rintro (⟨set, small, -, kept⟩ | rfl)
            · exact ⟨set, small, kept⟩
            · exact ⟨inPool.1, inPool.2, distinct.1⟩
          · rintro ⟨set, small, kept⟩
            by_cases same : f = frame
            · exact .inr same
            · exact .inl ⟨set, small, same, kept⟩
        · exact held.positive
        · exact held.bounded
        · intro f given
          exact held.below f (by rw [freed]; exact List.mem_cons_of_mem _ given)
        · exact distinct.2
    · cases allocates
      exact pool_extend held n

theorem pool_fresh : FreshPages poolPages Set.univ PoolHolds where
  failed held allocates := (pool_alloc held allocates).failed rfl
  fresh held allocates allocated :=
    have hands := pool_alloc held allocates
    ⟨hands.aligned allocated, hands.fresh allocated, hands.held allocated⟩
  counted held _ := ⟨held.exact, held.positive, held.bounded, held.below, held.nodup⟩

/-- A machine with blank memory and a pool that has handed out nothing. -/
def blankPool : Machine Pool := ⟨⟨1, [], fun _ => 0⟩, fun _ _ => 0⟩

theorem blank_pool_holds : PoolHolds blankPool.pages ∅ where
  exact := by
    ext f
    simp only [Set.mem_empty_iff_false, false_iff]
    rintro ⟨set, small, -⟩
    exact absurd small (not_lt.mpr set)
  positive := by decide
  bounded := by decide
  below _ given := nomatch given
  nodup := List.nodup_nil

end Mftt
