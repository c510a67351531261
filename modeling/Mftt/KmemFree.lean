import Mftt.KmemAlloc

/-!
# Giving blocks back

`kfree` wipes a block, merges it with the free blocks right behind it, and inserts the
result. On every heap between calls, with the lock free, it returns for every block in
use: none of its checks fails.
-/

namespace Mftt

open ByteMemory RedBlack Tiling

/-- The size of a block and the blocks behind it, once the free blocks right behind it
have been merged with it. -/
def absorb : Nat → List Piece → Nat × List Piece
  | sz, [] => (sz, [])
  | sz, q :: after => if q.used = true then (sz, q :: after) else absorb (sz + q.size) after

variable {sz : Nat} {before after : List Piece}

theorem absorb_used (sz c sz' : Nat) (after : List Piece) :
    absorb sz (⟨c, sz', true⟩ :: after) = (sz, ⟨c, sz', true⟩ :: after) := rfl

theorem absorb_size (sz : Nat) (after : List Piece) :
    (absorb sz after).1 + ((absorb sz after).2.map Piece.size).sum =
      sz + (after.map Piece.size).sum := by
  induction after generalizing sz with
  | nil => rfl
  | cons q after ih =>
    rw [absorb]
    split
    · rfl
    · rw [ih, List.map_cons, List.sum_cons, Nat.add_assoc]

variable {b turns : Nat}

variable {m : Bytes} {hd : PoolHeader}

section Coalesce

variable {m' : Bytes} {pool : Nat}

variable {limbo : Set Nat} {ps : List Piece}

theorem PoolState.end_eq (state : PoolState m pool hd limbo ps) :
    poolEnd m pool = pool + 40 + hd.size := by
  rw [poolEnd, state.size_eq]
  rfl

/-- A pool while free blocks are merged with the block `b`. -/
structure Merging (m : Bytes) (pool : Nat) (hd : PoolHeader) (b sz : Nat)
    (before after : List Piece) : Prop where
  state : PoolState m pool hd {b} (before ++ ⟨b, sz, true⟩ :: after)
  block : LimboBlock m pool b sz
  counter : hd.free = freeTotal (before ++ ⟨b, sz, true⟩ :: after)

/-- The memory after one free block has been merged with `b`. -/
def mergeOne (m : Bytes) (pool b sz c sz' : Nat) : Bytes :=
  let m := setPoolField m pool .free (subWord (poolField m pool .free) sz')
  let m := setBlockField m b .size (sz + sz')
  fill m c BLOCK_SIZE 0xBA#8

theorem merge_one_field {c : Nat} (m : Bytes) (sz' : Nat) (behind : pool + 40 ≤ b) (next : c = b + sz)
    (large : 64 ≤ sz) (small : sz + sz' < 2 ^ 32) (f : BlockField) :
    blockField (mergeOne m pool b sz c sz') b f =
      if f = .size then sz + sz' else blockField m b f := by
  have inside := f.inside
  have fits : (sz + sz') % 256 ^ BlockField.size.width = sz + sz' := Nat.mod_eq_of_lt small
  rw [mergeOne, blockField, load_fill_apart _ _ (by omega)]
  change blockField (setBlockField _ b .size (sz + sz')) b f = _
  rw [block_set_same, fits, block_set_pool _ _ _ behind]

/-- A block in limbo is merged: the counter of free bytes is written, then the header of `b`, then
the bytes of the other block, which no longer starts a piece. -/
theorem PoolState.merge {c sz' : Nat}
    (state : PoolState m pool hd {c, b} (before ++ ⟨b, sz, true⟩ :: ⟨c, sz', true⟩ :: after))
    (block : LimboBlock m pool b sz)
    (counter : hd.free = freeTotal (before ++ ⟨b, sz + sz', true⟩ :: after) + sz') :
    Merging (mergeOne m pool b sz c sz') pool
        { hd with free := freeTotal (before ++ ⟨b, sz + sz', true⟩ :: after) } b (sz + sz')
        before after ∧
      ChangedIn (span pool (40 + hd.size)) m (mergeOne m pool b sz c sz') := by
  have hereB : (⟨b, sz, true⟩ : Piece) ∈ before ++ ⟨b, sz, true⟩ :: ⟨c, sz', true⟩ :: after := by
    simp
  have hereC : (⟨c, sz', true⟩ : Piece) ∈ before ++ ⟨b, sz, true⟩ :: ⟨c, sz', true⟩ :: after := by
    simp
  have placeB := state.shape.within hereB
  have placeC := state.shape.within hereC
  have next := state.shape.tiles.next_start
  have small := state.shape.small
  have part := state.shape.free_total_le
  simp only [free_total_append, free_total_used] at placeB placeC part counter
  have count : subWord (poolField m pool .free) sz' =
      freeTotal (before ++ ⟨b, sz + sz', true⟩ :: after) := by
    simp only [free_total_append, free_total_used]
    rw [state.free_eq, sub_word_of_le (by omega) (by omega)]
    omega
  have filled : ∀ m : Bytes, ChangedIn (span c sz') m (fill m c BLOCK_SIZE 0xBA#8) := by
    intro m
    apply (changed_fill _ _ _ _).mono
    intro x inside
    simp only [Set.mem_Ico, BLOCK_SIZE] at inside ⊢
    omega
  have bound : freeTotal (before ++ ⟨b, sz + sz', true⟩ :: after) < 2 ^ 64 := by
    simp only [free_total_append, free_total_used]
    omega
  have written := ((state.set_free _ bound).scribble hereB rfl (.inr rfl)
    (changed_set_piece _ b .size (sz + sz') placeB.2.2)).scribble hereC rfl (.inl rfl) (filled _)
  rw [← count] at written
  have joined := written.join (.inr rfl)
  have here : (⟨b, sz + sz', true⟩ : Piece) ∈ before ++ ⟨b, sz + sz', true⟩ :: after := by simp
  have front := merge_one_field m sz' placeB.1 next placeB.2.2 (by omega)
  refine ⟨⟨?_, ⟨?_, ?_, ?_⟩, rfl⟩, ?_⟩
  · rw [← count]
    refine joined.settle fun p member used inside outside => ?_
    rcases inside with start | start
    · have place := joined.shape.within member
      have mine : c ∈ span p.start p.size := by
        simp only [Set.mem_Ico]
        omega
      have theirs : c ∈ span b (sz + sz') := by
        simp only [Set.mem_Ico]
        omega
      obtain rfl := joined.shape.unique member here mine theirs
      simp only at start
      omega
    · exact absurd start outside
  · rw [front, if_neg (by decide), block.cookie]
  · rw [front, if_pos rfl]
  · rw [front, if_neg (by decide), block.owner]
  · have within : ∀ {a n : Nat}, pool + 40 ≤ a → a + n ≤ pool + 40 + hd.size →
        span a n ⊆ span pool (40 + hd.size) := by
      intro a n low high x known
      simp only [Set.mem_Ico] at known ⊢
      omega
    exact (changed_set_pool _ pool hd.size _ _).trans
      (((changed_set_piece _ b .size _ placeB.2.2).mono (within placeB.1 placeB.2.1)).trans
        ((filled _).mono (within placeC.1 placeC.2.1)))

/-- One free block is merged. -/
theorem Merging.one {c sz' : Nat} (turns : Nat) (enough : 2 ^ 32 ≤ turns)
    (merging : Merging m pool hd b sz before (⟨c, sz', false⟩ :: after)) :
    ∃ m', removeFromPool turns m c = .ok m' ∧ blockField m' c .size = sz' ∧
      blockField m' b .size = sz ∧
      Merging (mergeOne m' pool b sz c sz') pool
        { hd with free := freeTotal (before ++ ⟨b, sz + sz', true⟩ :: after) } b (sz + sz')
        before after ∧
      ChangedIn (span pool (40 + hd.size)) m (mergeOne m' pool b sz c sz') := by
  obtain ⟨state, block, counter⟩ := merging
  have arranged : ∀ mark, before ++ ⟨b, sz, true⟩ :: ⟨c, sz', mark⟩ :: after =
      (before ++ [⟨b, sz, true⟩]) ++ ⟨c, sz', mark⟩ :: after := by simp
  rw [arranged] at state
  obtain ⟨m', removes, state₁, kept, changed, -⟩ := state.take enough
  rw [← arranged] at state state₁ changed
  have large := (state.shape.within (p := ⟨b, sz, true⟩) (by simp)).2.2
  have same : SameBlock m m' b := by
    apply SameBlock.of_changed changed
    intro x inside
    apply state.shape.free_scope_used (p := ⟨b, sz, true⟩) (fun _ known => known) (by simp) rfl
    simp only [Set.mem_Ico] at inside large ⊢
    omega
  have block₁ := block.congr same
  have total : hd.free = freeTotal (before ++ ⟨b, sz + sz', true⟩ :: after) + sz' := by
    simp only [counter, free_total_append, free_total_used, free_total_free]
    omega
  obtain ⟨merged, written⟩ := state₁.merge block₁ total
  exact ⟨m', removes, kept.sized.trans (state.sizes ⟨c, sz', false⟩ (by simp) rfl), block₁.sized,
    merged, (changed.mono (state.shape.free_scope_inside fun _ known => known)).trans written⟩

/-- A pool with the header that the merging of all free blocks leaves. -/
abbrev MergedAll (m : Bytes) (pool : Nat) (hd : PoolHeader) (b sz : Nat)
    (before after : List Piece) : Prop :=
  Merging m pool { hd with free := freeTotal (before ++ ⟨b, (absorb sz after).1, true⟩ ::
    (absorb sz after).2) } b (absorb sz after).1 before (absorb sz after).2

theorem PoolState.free_block {p : Piece} (state : PoolState m pool hd limbo ps) (member : p ∈ ps)
    (unused : p.used = false) :
    blockField m p.start .cookie = KMEM_COOKIE ∧ blockField m p.start .pool = pool ∧
      hasFlag (blockField m p.start .type) KMEM_TYPE_FREE = true := by
  obtain ⟨s, rest, rep⟩ := state.index
  obtain ⟨first, prev, next, block⟩ := rep.block (mem_free_starts.mpr ⟨p, member, unused, rfl⟩)
  exact ⟨block.cookie, block.owner, by rw [block.type, has_free]⟩

/-- The block behind `b` in use, if it is. -/
theorem Merging.next_used {q : Piece} (merging : Merging m pool hd b sz before (q :: after))
    (used : q.used = true) : UsedBlock m pool q := by
  apply merging.state.used q (by simp) used
  intro start
  have here : (⟨b, sz, true⟩ : Piece) ∈ before ++ ⟨b, sz, true⟩ :: q :: after := by simp
  have large := (merging.state.shape.within here).2.2
  have next := merging.state.shape.tiles.next_start (b := b) (c := q.start)
  simp only [Set.mem_singleton_iff] at start
  simp only at large
  omega

/-- The loop of `kfree` merges all free blocks right behind the block.

Proof: induction on the blocks behind it. -/
theorem coalesce_spec (turns : Nat) (enough : 2 ^ 32 ≤ turns) (rounds : Nat)
    (few : after.length ≤ rounds) (merging : Merging m pool hd b sz before after)
    (some : after ≠ []) :
    ∃ m', coalesce turns rounds m pool b (b + sz) = .ok m' ∧
      MergedAll m' pool hd b sz before after ∧ ChangedIn (span pool (40 + hd.size)) m m' := by
  induction after generalizing m hd sz rounds with
  | nil => exact absurd rfl some
  | cons q after ih =>
    simp only [List.length_cons] at few
    obtain ⟨rounds, rfl⟩ : ∃ k, rounds = k + 1 := ⟨rounds - 1, by omega⟩
    obtain ⟨c, sz', used⟩ := q
    have next : c = b + sz := merging.state.shape.tiles.next_start
    have here : (⟨c, sz', used⟩ : Piece) ∈ before ++ ⟨b, sz, true⟩ :: ⟨c, sz', used⟩ :: after := by
      simp
    have place := merging.state.shape.within here
    simp only at place
    have valid : c ≠ 0 := by omega
    subst next
    cases used with
    | true =>
      have block := merging.next_used rfl
      have type : blockField m (b + sz) .type = KMEM_TYPE_INUSE := block.type
      refine ⟨m, ?_, ?_, ChangedIn.refl _ _⟩
      · rw [coalesce, read_block_of_ne valid, type]
        rfl
      · have same : hd = { hd with free := freeTotal (before ++ ⟨b, sz, true⟩ ::
            ⟨b + sz, sz', true⟩ :: after) } := by rw [← merging.counter]
        simp only [MergedAll, absorb_used]
        rwa [← same]
    | false =>
      obtain ⟨-, owner, flag⟩ := merging.state.free_block here rfl
      obtain ⟨m₁, removes, sizeC, sizeB, merged, changed₁⟩ := merging.one turns enough
      have blockB := merging.state.shape.within (p := ⟨b, sz, true⟩) (by simp)
      simp only at blockB owner flag
      have validB : b ≠ 0 := by omega
      have ends : poolEnd (mergeOne m₁ pool b sz (b + sz) sz') pool = pool + 40 + hd.size :=
        merged.state.end_eq
      have begins : coalesce turns (rounds + 1) m pool b (b + sz) =
          if poolEnd (mergeOne m₁ pool b sz (b + sz) sz') pool ≤ b + (sz + sz') then
            pure (mergeOne m₁ pool b sz (b + sz) sz')
          else coalesce turns rounds (mergeOne m₁ pool b sz (b + sz) sz') pool b
            (b + (sz + sz')) := by
        have sizeB' :
          blockField (setPoolField m₁ pool .free (subWord (poolField m₁ pool .free) sz'))
            b .size = sz := by rw [block_set_pool _ _ _ blockB.1, sizeB]
        rw [coalesce, read_block_of_ne valid, bind_ok, flag, if_pos rfl, read_block_of_ne valid,
          bind_ok, assert_true _ owner, bind_ok, removes, bind_ok, read_block_of_ne valid, bind_ok,
          sizeC]
        dsimp only
        rw [read_block_of_ne validB, bind_ok, sizeB', write_block_of_ne validB, bind_ok,
          Nat.add_assoc b]
        rfl
      cases after with
      | nil =>
        have last : b + (sz + sz') = pool + 40 + hd.size := merged.state.shape.tiles.last_end
        refine ⟨_, ?_, merged, changed₁⟩
        rw [begins, if_pos (by omega)]
        rfl
      | cons r rest =>
        have behind := merged.state.shape.within (p := r) (by simp)
        have start : r.start = b + (sz + sz') := merged.state.shape.tiles.next_start
        obtain ⟨m', continues, all, changed⟩ := ih rounds (by omega) merged (List.cons_ne_nil _ _)
        refine ⟨m', ?_, all, changed₁.trans changed⟩
        simp only at behind
        rw [begins, if_neg (by omega), continues]

/-- The part of `kfree` that merges the block with those behind it. -/
theorem merge_next_spec (turns : Nat) (enough : 2 ^ 32 ≤ turns)
    (merging : Merging m pool hd b sz before after) :
    ∃ m', mergeNext turns m pool b (b + sz) = .ok m' ∧
      MergedAll m' pool hd b sz before after ∧ ChangedIn (span pool (40 + hd.size)) m m' := by
  have ends := merging.state.end_eq
  cases after with
  | nil =>
    have last : b + sz = pool + 40 + hd.size := merging.state.shape.tiles.last_end
    refine ⟨m, ?_, ?_, ChangedIn.refl _ _⟩
    · rw [mergeNext, if_neg (by omega)]
      rfl
    · have same : hd = { hd with free := freeTotal (before ++ [⟨b, sz, true⟩]) } := by
        rw [← merging.counter]
      simp only [MergedAll, absorb]
      rwa [← same]
  | cons q after =>
    obtain ⟨c, sz', used⟩ := q
    have here : (⟨c, sz', used⟩ : Piece) ∈ before ++ ⟨b, sz, true⟩ :: ⟨c, sz', used⟩ :: after := by
      simp
    have place := merging.state.shape.within here
    have next : c = b + sz := merging.state.shape.tiles.next_start
    subst next
    simp only at place
    have valid : b + sz ≠ 0 := by omega
    have cookie : blockField m (b + sz) .cookie = KMEM_COOKIE := by
      cases used with
      | true => exact (merging.next_used rfl).cookie
      | false => exact (merging.state.free_block here rfl).1
    have count := merging.state.shape.tiles.length_le
    have small := merging.state.shape.small
    simp only [List.length_append, List.length_cons] at count
    obtain ⟨m', loops, all, changed⟩ := coalesce_spec turns enough turns
      (by simp only [List.length_cons]; omega) merging (List.cons_ne_nil _ _)
    refine ⟨m', ?_, all, changed⟩
    rw [mergeNext, if_pos (by omega), read_block_of_ne valid, bind_ok, assert_true _ cookie,
      bind_ok, loops]

end Coalesce

section Kfree

variable {h : KernelHeap} {w : PoolView} {pre post : List PoolView}

/-- The blocks of a pool after a block has been given back. -/
def giveBack (b sz : Nat) (before after : List Piece) : List Piece :=
  before ++ ⟨b, (absorb sz after).1, false⟩ :: (absorb sz after).2

theorem size_give_back (b sz : Nat) (before after : List Piece) :
    ((giveBack b sz before after).map Piece.size).sum =
      ((before ++ ⟨b, sz, true⟩ :: after).map Piece.size).sum := by
  have total := absorb_size sz after
  simp only [giveBack, List.map_append, List.map_cons, List.sum_append, List.sum_cons]
  omega

/-- `kfree` with the lock held: what is merged, inserted and counted. -/
theorem kfree_locked (turns : Nat) (enough : 2 ^ 32 ≤ turns) {pool : Nat}
    (merging : Merging m pool hd b sz before after) :
    ∃ m₁ m', mergeNext turns m pool b (b + sz) = .ok m₁ ∧ b ≠ 0 ∧
      blockField m₁ b .size = (absorb sz after).1 ∧
      insertIntoPool turns m₁ pool b (absorb sz after).1 = .ok m' ∧
      blockField m' b .size = (absorb sz after).1 ∧
      PoolState (setPoolField m' pool .free ((poolField m' pool .free + (absorb sz after).1) %
        2 ^ 64)) pool { hd with free := freeTotal (giveBack b sz before after) } ∅
        (giveBack b sz before after) ∧
      ChangedIn (span pool (40 + hd.size)) m m' := by
  obtain ⟨m₁, merges, all, changed₁⟩ := merge_next_spec turns enough merging
  obtain ⟨m', inserts, state, changed₂⟩ := all.state.give enough
  have here : (⟨b, (absorb sz after).1, false⟩ : Piece) ∈
      before ++ ⟨b, (absorb sz after).1, false⟩ :: (absorb sz after).2 := by simp
  have place := state.shape.within here
  have part := state.shape.free_total_le
  have small := state.shape.small
  simp only at place part small
  have total : freeTotal (giveBack b sz before after) = (absorb sz after).1 +
      freeTotal (before ++ ⟨b, (absorb sz after).1, true⟩ :: (absorb sz after).2) := by
    simp only [giveBack, free_total_append, free_total_free, free_total_used]
    omega
  have sum : (poolField m' pool .free + (absorb sz after).1) % 2 ^ 64 =
      freeTotal (giveBack b sz before after) := by
    rw [state.free_eq, total, Nat.add_comm]
    apply Nat.mod_eq_of_lt
    change freeTotal (giveBack b sz before after) ≤ hd.size at part
    dsimp only
    omega
  refine ⟨m₁, m', merges, by omega, all.block.sized, inserts, state.sizes _ here rfl, ?_, ?_⟩
  · rw [sum]
    have written := state.set_free (freeTotal (giveBack b sz before after))
      (by change freeTotal (giveBack b sz before after) ≤ hd.size at part; omega)
    refine written.settle fun p member used start _ => ?_
    obtain rfl := written.shape.start_unique member here start
    cases used
  · exact changed₁.trans (changed₂.mono (state.shape.free_scope_inside fun _ known => known))

/-- Wiping a block leaves its header. -/
theorem wipe_changed (large : 64 ≤ sz) :
    ChangedIn (span (b + 16) (sz - 16)) m
      (fill m (b + 16) (b + sz - 8 - (b + 16) + 8) 0xFA#8) := by
  apply (changed_fill _ _ _ _).mono
  intro x inside
  simp only [Set.mem_Ico] at inside ⊢
  omega

/-- A block in use is put into limbo and wiped, and the lock of its pool is taken. -/
theorem merging_begins (good : PoolGood m w) (split : w.pieces = before ++ ⟨b, sz, true⟩ :: after) :
    PoolState (fill m (b + 16) (b + sz - 8 - (b + 16) + 8) 0xFA#8) w.pool w.header {b} w.pieces ∧
    LimboBlock (fill m (b + 16) (b + sz - 8 - (b + 16) + 8) 0xFA#8) w.pool b sz := by
  have here : (⟨b, sz, true⟩ : Piece) ∈ w.pieces := by
    rw [split]
    simp
  have large := (good.state.shape.within here).2.2
  have block := good.state.used _ here rfl (Set.notMem_empty _)
  have wiped := wipe_changed (m := m) (b := b) large
  constructor
  · refine (good.state.mono (Set.empty_subset {b})).scribble here rfl rfl (wiped.mono ?_)
    intro x inside
    simp only [Set.mem_Ico] at inside ⊢
    omega
  · have front : ∀ f : BlockField, f.offset + f.width ≤ 16 →
        blockField (fill m (b + 16) (b + sz - 8 - (b + 16) + 8) 0xFA#8) b f = blockField m b f := by
      intro f early
      apply wiped.load
      intro x inside outside
      simp only [Set.mem_Ico] at inside outside
      omega
    exact ⟨(front _ (by decide)).trans block.cookie, (front _ (by decide)).trans block.sized,
      (front _ (by decide)).trans block.owner⟩

/-- `kfree` of a block in use returns on every heap between calls whose lock is free. -/
theorem kfree_spec (enough : 2 ^ 64 ≤ turns) (rep : HeapRep h (pre ++ w :: post))
    (unlocked : h.kmemLock = false) (split : w.pieces = before ++ ⟨b, sz, true⟩ :: after) :
    ∃ m', kfree turns h (b + 24) = .ok ⟨m', h.memoryPool, false⟩ ∧
      HeapRep ⟨m', h.memoryPool, false⟩
        (pre ++ ⟨w.pool, w.next, giveBack b sz before after⟩ :: post) ∧
      ChangedIn w.extent h.bytes m' := by
  have good := rep.pools w (by simp)
  have here : (⟨b, sz, true⟩ : Piece) ∈ w.pieces := by
    rw [split]
    simp
  have place := good.state.shape.within here
  have block := good.state.used _ here rfl (Set.notMem_empty _)
  simp only at place
  obtain ⟨state₁, block₁⟩ := merging_begins good split
  generalize wipe : fill h.bytes (b + 16) (b + sz - 8 - (b + 16) + 8) 0xFA#8 = m₁ at state₁ block₁
  have many : 2 ^ 32 ≤ turns := by omega
  have valid : b ≠ 0 := by omega
  have poolValid := state₁.shape.valid
  have counted := state₁.check many rfl
  have locks := acquire_pool poolValid state₁.lock_eq
  have state₂ := state₁.set_lock 1 (by decide)
  have validated := state₂.validate many good.some
  rw [split] at state₂
  have merging : Merging (setPoolField m₁ w.pool .lock 1) w.pool { w.header with lock := 1 } b sz
      before after := by
    refine ⟨state₂, ?_, ?_⟩
    · constructor <;> rw [block_set_pool _ _ _ place.1]
      · exact block₁.cookie
      · exact block₁.sized
      · exact block₁.owner
    · rw [← split]
      rfl
  obtain ⟨m₂, m₃, merges, -, size₂, inserts, size₃, state₃, changed⟩ :=
    kfree_locked turns many merging
  generalize counts : setPoolField m₃ w.pool .free ((poolField m₃ w.pool .free +
    (absorb sz after).1) % 2 ^ 64) = m₄ at state₃
  have some : freeStarts (giveBack b sz before after) ≠ [] := by
    simp [giveBack, free_starts_append]
  have releases := release_pool (m := m₄) poolValid (by rw [state₃.lock_eq]; exact Nat.one_ne_zero)
  have size : PoolView.size ⟨w.pool, w.next, giveBack b sz before after⟩ = w.size := by
    simp only [PoolView.size, size_give_back, split]
  have final : PoolGood (setPoolField m₄ w.pool .lock 0)
      ⟨w.pool, w.next, giveBack b sz before after⟩ := by
    refine ⟨?_, some⟩
    rw [PoolView.header, size]
    exact state₃.set_lock 0 (by decide)
  have within : ChangedIn w.extent h.bytes (setPoolField m₄ w.pool .lock 0) := by
    have inside : span (b + 16) (sz - 16) ⊆ w.extent := by
      intro x known
      simp only [PoolView.header, PoolView.extent, Set.mem_Ico] at place known ⊢
      omega
    have wiped := (wipe_changed (m := h.bytes) (b := b) place.2.2).mono inside
    rw [wipe] at wiped
    rw [← counts]
    exact wiped.trans ((changed_set_pool _ w.pool w.size _ _).trans (changed.trans
      ((changed_set_pool _ w.pool w.size _ _).trans (changed_set_pool _ w.pool w.size _ _))))
  refine ⟨setPoolField m₄ w.pool .lock 0, ?_, ?_, within⟩
  · have taken : acquireKmem h = .ok { h with kmemLock := true } := by
      rw [acquireKmem, if_neg (by rw [unlocked]; decide)]
      rfl
    have back : b + 24 - KMEM_BLOCK_HEAD_SIZE - CANARY_SIZE = b := by
      simp only [KMEM_BLOCK_HEAD_SIZE, CANARY_SIZE]
      omega
    rw [kfree, taken, bind_ok]
    dsimp only
    rw [back, read_block_of_ne valid, bind_ok, assert_true _ block.cookie, bind_ok,
      read_block_of_ne valid, bind_ok, assert_true _ block.type, bind_ok, read_block_of_ne valid,
      bind_ok, block.sized, assert_true _ block.beginCanary, bind_ok, assert_true _ block.endCanary,
      bind_ok, wipe, read_block_of_ne valid, bind_ok, block₁.owner, not_null_of_ne poolValid,
      bind_ok, counted, bind_ok, locks, bind_ok, validated, bind_ok, merges, bind_ok,
      read_block_of_ne valid, bind_ok, size₂, inserts, bind_ok, read_block_of_ne valid, bind_ok,
      size₃, counts, state₃.validate many some, state₃.check many rfl, releases]
    rfl
  · exact rep.exchange (by rfl) (by rfl) size final within false

end Kfree

end Mftt
