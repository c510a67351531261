import Mftt.KmallocContract

/-!
# The contents of fresh memory

`kmalloc` clears a block before it hands it out, so that nothing of what was kept in it
before can be read. The number of bytes to clear is computed from the two canaries, and both
canaries are taken off it although the first byte is already behind one of them. The last
eight bytes before the end canary are therefore left as they were. Whether a request reaches
them depends on its size and on the size of the block that it is given.

A statement about every content of the free memory is one about two runs: heaps that differ
only behind the headers of their free blocks are given the same request.
-/

namespace Mftt

open ByteMemory RedBlack Tiling

variable {h : KernelHeap} {vs : List PoolView}

section Contents

variable {m : Bytes} {v w : PoolView} {p q : Piece}

/-- The bytes of free blocks behind their headers. -/
def freeContents (vs : List PoolView) : Set Nat :=
  {x | ∃ v ∈ vs, ∃ p ∈ v.pieces, p.used = false ∧ p.start + 64 ≤ x ∧ x < p.start + p.size}

/-- Such a byte belongs to one block only. -/
theorem HeapRep.free_content_unique (rep : HeapRep h vs) (member : v ∈ vs) (inside : p ∈ v.pieces)
    {x : Nat} (here : x ∈ span p.start p.size) (free : x ∈ freeContents vs) :
    p.used = false ∧ p.start + 64 ≤ x := by
  obtain ⟨w, other, q, known, unused, low, high⟩ := free
  have there : x ∈ span q.start q.size := ⟨by omega, high⟩
  obtain ⟨-, rfl⟩ := rep.piece_unique member other inside known here there
  exact ⟨unused, low⟩

/-- The heap is the same for all contents of its free memory. -/
theorem HeapRep.free_contents (rep : HeapRep h vs)
    (changed : ChangedIn (freeContents vs) h.bytes m) : HeapRep { h with bytes := m } vs := by
  refine ⟨rep.linked, fun v member => ⟨?_, (rep.pools v member).some⟩, rep.apart⟩
  have state := (rep.pools v member).state
  refine state.congr (fun x inside => changed x fun free => ?_) ?_ ?_
  · -- the header of a pool lies in front of its blocks
    obtain ⟨w, other, q, known, -, low, high⟩ := free
    have place : x ∈ span q.start q.size := ⟨by omega, high⟩
    have there := (rep.pools w other).piece_subset known place
    have mine : x ∈ v.extent := by
      simp only [PoolView.extent, Set.mem_Ico] at inside ⊢
      omega
    obtain rfl := rep.pool_unique member other mine there
    have behind := state.shape.within known
    simp only [Set.mem_Ico] at inside
    omega
  · intro p inside unused x here
    apply changed
    intro free
    have place := state.shape.within inside
    have low := (rep.free_content_unique member inside
      (by simp only [Set.mem_Ico] at here ⊢; omega) free).2
    simp only [Set.mem_Ico] at here
    omega
  · intro p inside used _ x here _
    apply changed
    intro free
    have unused := (rep.free_content_unique member inside here free).1
    rw [used] at unused
    cases unused

end Contents

variable {h' : KernelHeap} {turns size n : Nat}

section Granted

variable {need p : Nat}

/-- A request that is served gets a block of `n` bytes. -/
def BlockGranted (vs : List PoolView) (need n : Nat) : Prop :=
  ∃ pre w post b sz before after, vs = pre ++ w :: post ∧ (∀ v ∈ pre, Passed v need) ∧
    BestFit w need b sz before after ∧ (need + 64 ≤ sz ∨ freeStarts (before ++ after) ≠ []) ∧
    n = takenSize need sz

theorem BlockGranted.serves (granted : BlockGranted vs need n) : Serves vs need := by
  obtain ⟨pre, w, post, b, sz, before, after, split, earlier, fit, left, -⟩ := granted
  exact ⟨pre, w, post, b, sz, before, after, split, earlier, fit, left⟩

/-- The size of the block is determined. -/
theorem BlockGranted.unique {n' : Nat} (granted : BlockGranted vs need n)
    (granted' : BlockGranted vs need n') :
    n = n' := by
  obtain ⟨pre, w, post, b, sz, before, after, split, earlier, fit, -, rfl⟩ := granted
  obtain ⟨pre', w', post', b', sz', before', after', split', earlier', fit', -, rfl⟩ := granted'
  obtain ⟨-, rfl, -⟩ := first_unique (P := fun v => ¬Passed v need) (split.symm.trans split')
    (fun v known => not_not_intro (earlier v known)) fit.not_passed
    (fun v known => not_not_intro (earlier' v known)) fit'.not_passed
  rw [fit.size_unique fit']

/-- The block that a call returned, with what it holds. -/
theorem KmallocEnds.granted (ends : KmallocEnds h vs size (.ok (p, h'))) (some : p ≠ 0) :
    ∃ b n, p = b + 24 ∧ BlockGranted vs (kmallocSizes size).2 n ∧
      FreshBlock h.bytes (kmallocSizes size).2 b n h'.bytes ∧ (kmallocSizes size).2 ≤ n ∧
      ∀ x, b + 64 ≤ x → x < b + n → x ∈ freeContents vs := by
  cases ends with
  | none => exact absurd rfl some
  | @allocated pre post w b sz before after m' split earlier fit left rep changed fresh =>
    refine ⟨b, _, rfl, ⟨pre, w, post, b, sz, before, after, split, earlier, fit,
      free_starts_carve.mp left, rfl⟩, fresh, taken_size_need fit.large, fun x low high => ?_⟩
    have shorter := taken_size_le fit.large
    refine ⟨w, by rw [split]; simp, ⟨b, sz, false⟩, fit.member, rfl, low, ?_⟩
    simp only
    omega

end Granted

/-- Nothing of the free memory can be read from a fresh block: it is clear whatever the free
memory holds, and two heaps that differ only there yield the same bytes. -/
structure RevealsNothing (turns : Nat) (h : KernelHeap) (vs : List PoolView) (size : Nat) :
    Prop where
  clear : ∀ m, ChangedIn (freeContents vs) h.bytes m →
    ∀ p h', kmalloc turns { h with bytes := m } size = .ok (p, h') → p ≠ 0 →
      ∀ i < size, h'.bytes (p + i) = 0#8
  same : ∀ m₁ m₂, ChangedIn (freeContents vs) h.bytes m₁ → ChangedIn (freeContents vs) h.bytes m₂ →
    ∀ p₁ h₁ p₂ h₂, kmalloc turns { h with bytes := m₁ } size = .ok (p₁, h₁) →
      kmalloc turns { h with bytes := m₂ } size = .ok (p₂, h₂) → p₁ ≠ 0 → p₂ ≠ 0 →
      ∀ i < size, h₁.bytes (p₁ + i) = h₂.bytes (p₂ + i)

/-- Requests of up to 32 bytes are given a block of the least size, and only they. -/
theorem kmalloc_sizes_least (small : size < 2 ^ 32) :
    if size ≤ 32 then (kmallocSizes size).2 = 64 else 80 ≤ (kmallocSizes size).2 := by
  simp only [kmallocSizes, CANARY_SIZE, KMEM_BLOCK_HEAD_SIZE, BLOCK_SIZE]
  split <;> split <;> simp only <;> omega

theorem FreshBlock.clear {m m' : Bytes} {b : Nat}
    (fresh : FreshBlock m (kmallocSizes size).2 b n m') (small : size < 2 ^ 32)
    (short : size ≤ 32 ∨ size + 40 ≤ n) : ∀ i < size, m' (b + 24 + i) = 0#8 := by
  intro i inside
  by_cases least : size ≤ 32
  · have need := kmalloc_sizes_least small
    rw [if_pos least] at need
    exact fresh.least need.le _ (by omega) (by omega)
  · exact fresh.cleared _ (by omega) (by have := short.resolve_left least; omega)

/-- The last byte of a request that does reach it is what it was. -/
theorem FreshBlock.stale_byte {m m' : Bytes} {b : Nat}
    (fresh : FreshBlock m (kmallocSizes size).2 b n m') (small : size < 2 ^ 32)
    (room : (kmallocSizes size).2 ≤ n) (long : ¬(size ≤ 32 ∨ size + 40 ≤ n)) :
    b + 64 ≤ b + 24 + (size - 1) ∧ b + 24 + (size - 1) < b + n ∧
      m' (b + 24 + (size - 1)) = m (b + 24 + (size - 1)) := by
  have need := kmalloc_sizes_least small
  have fits : size + 32 ≤ (kmallocSizes size).2 := kmalloc_sizes_fit (by omega)
  rw [if_neg (fun least => long (.inl least))] at need
  have behind : b + 64 ≤ b + 24 + (size - 1) := by omega
  exact ⟨behind, by omega, fresh.stale _ behind (by omega) (by omega)⟩

/-- A memory with the given byte throughout the free memory. -/
noncomputable def soil (m : Bytes) (vs : List PoolView) (byte : BitVec 8) : Bytes :=
  open Classical in fun x => if x ∈ freeContents vs then byte else m x

theorem changed_soil (m : Bytes) (vs : List PoolView) (byte : BitVec 8) :
    ChangedIn (freeContents vs) m (soil m vs byte) := fun _ outside => if_neg outside

/-- Nothing is revealed exactly when the request, if it is served, ends eight bytes before the
end canary, or is among the smallest ones. -/
theorem HeapRep.reveals_nothing_iff (enough : 2 ^ 64 ≤ turns) (rep : HeapRep h vs)
    (small : size < 2 ^ 32) : RevealsNothing turns h vs size ↔
      ∀ n, h.kmemLock = false → BlockGranted vs (kmallocSizes size).2 n →
        size ≤ 32 ∨ size + 40 ≤ n := by
  constructor
  · intro nothing n unlocked granted
    by_contra long
    have rep' := rep.free_contents (changed_soil h.bytes vs 1#8)
    have ends := kmalloc_spec enough rep' size
    obtain ⟨p, h', returns, some⟩ := ends.served unlocked granted.serves
    rw [returns] at ends
    obtain ⟨b, n', rfl, granted', fresh, room, inside⟩ := ends.granted some
    obtain rfl := granted.unique granted'
    obtain ⟨low, high, stale⟩ := fresh.stale_byte small room long
    have zero := nothing.clear _ (changed_soil h.bytes vs 1#8) _ h' returns some (size - 1)
      (by omega)
    have one : soil h.bytes vs 1#8 (b + 24 + (size - 1)) = 1#8 := if_pos (inside _ low high)
    rw [zero] at stale
    exact absurd (stale.trans one) (by decide)
  · intro short
    have clear : ∀ m, ChangedIn (freeContents vs) h.bytes m →
        ∀ p h', kmalloc turns { h with bytes := m } size = .ok (p, h') → p ≠ 0 →
          ∀ i < size, h'.bytes (p + i) = 0#8 := by
      intro m changed p h' returns some
      have ends := kmalloc_spec enough (rep.free_contents changed) size
      have unlocked : h.kmemLock = false := by
        cases lock : h.kmemLock with
        | false => rfl
        | true =>
          rw [kmalloc_locked (show KernelHeap.kmemLock { h with bytes := m } = true from lock)]
            at returns
          cases returns
      rw [returns] at ends
      obtain ⟨b, n, rfl, granted, fresh, -, -⟩ := ends.granted some
      exact fresh.clear small (short n unlocked granted)
    refine ⟨clear, fun m₁ m₂ left right p₁ h₁ p₂ h₂ first second some₁ some₂ i inside => ?_⟩
    rw [clear m₁ left p₁ h₁ first some₁ i inside, clear m₂ right p₂ h₂ second some₂ i inside]

/-- In every heap that a history leads to, a request reveals nothing of the free memory
exactly when it asks for at most 32 bytes, or the block that it gets has at least 40 bytes
more, or no block is handed out. -/
theorem kmalloc_reveals_nothing_iff {turns : Nat} {h : KernelHeap}
    {regions live : List (Nat × Nat)} (enough : 2 ^ 64 ≤ turns)
    (reach : HeapReachable turns h regions live) :
    (∃ vs, HistoryInv h regions live vs) ∧ ∀ vs, HistoryInv h regions live vs →
      ∀ size < 2 ^ 32 - 64, (RevealsNothing turns h vs size ↔
        ∀ n, h.kmemLock = false → BlockGranted vs (kmallocSizes size).2 n →
          size ≤ 32 ∨ size + 40 ≤ n) :=
  ⟨reach.inv enough, fun _ inv _ small => inv.heap.reveals_nothing_iff enough (by omega)⟩

/-- A request of a hundred bytes reveals nothing of a page. -/
theorem page_reveals_nothing : ∃ h, HeapReachable (2 ^ 64) h [(4096, 4096)] [] ∧
    RevealsNothing (2 ^ 64) h [pageView] 100 := by
  obtain ⟨h, reach, inv, -⟩ := page_history
  refine ⟨h, reach, ((kmalloc_reveals_nothing_iff (Nat.le_refl _) reach).2 _ inv 100
    (by decide)).mpr fun n _ granted => .inr ?_⟩
  have here : BlockGranted [pageView] (kmallocSizes 100).2 144 :=
    ⟨[], pageView, [], 4136, 4056, [], [], rfl, by simp, page_best_fit (by decide),
      .inl (by decide), by decide⟩
  rw [granted.unique here]
  decide

/-- A request of 48 bytes from a page that was full of ones before ends with a one. -/
theorem page_reveals_byte : ∃ h h', HeapReachable (2 ^ 64) h [(4096, 4096)] [] ∧
    HistoryInv h [(4096, 4096)] [] [pageView] ∧
    kmalloc (2 ^ 64) h 48 = .ok (4160, h') ∧ h'.bytes (4160 + 47) = 1#8 ∧
    ¬RevealsNothing (2 ^ 64) h [pageView] 48 := by
  obtain ⟨h, reach, rep, lock, ones⟩ := page_attached_to fun _ => 1#8
  obtain ⟨h', returns⟩ := (page_ends rep lock 48).1 (by decide)
  have ends := kmalloc_spec (Nat.le_refl _) rep 48
  rw [returns] at ends
  obtain ⟨b, n, pointer, granted, fresh, room, -⟩ := ends.granted (by decide)
  obtain rfl : b = 4136 := by omega
  have here : BlockGranted [pageView] (kmallocSizes 48).2 80 :=
    ⟨[], pageView, [], 4136, 4056, [], [], rfl, by simp, page_best_fit (by decide),
      .inl (by decide), by decide⟩
  obtain rfl := granted.unique here
  have byte : h'.bytes (4160 + 47) = 1#8 :=
    (fresh.stale_byte (by decide) room (by decide)).2.2.trans (ones _ (by decide))
  refine ⟨h, h', reach, ⟨rep, rfl, .nil, by simp⟩, returns, byte, fun nothing => ?_⟩
  have zero := nothing.clear h.bytes (ChangedIn.refl _ _) 4160 h' returns (by decide) 47 (by decide)
  rw [byte] at zero
  exact absurd zero (by decide)

end Mftt
