import Mftt.KmemRuns

/-!
# The contract of kmalloc

A caller of `kmalloc` counts on three things: the call comes back, with a block if one is
large enough and with NULL and a free heap otherwise; the block is a smallest one that fits;
and what the caller writes into it is no concern of `kfree`.

The first does not hold of every heap. The search stops with a panic at a pool whose free
bytes would suffice while none of its blocks does; the tree is validated once more when its
last node is gone; and NULL is returned with `kmem_lock` held. The heaps and sizes for which
it holds are those that `Serves` describes, and for them the block is a best fit. The last
holds of every block that is returned.
-/

namespace Mftt

open ByteMemory RedBlack Tiling

variable {h : KernelHeap} {vs : List PoolView} {v : PoolView} {turns size need b : Nat}

section Served

variable {w : PoolView} {sz b' sz' : Nat} {before after before' after' : List Piece}

/-- The first element with a property is unique, and so is what stands around it. -/
theorem first_unique {α : Type*} {P : α → Prop} {pre pre' post post' : List α} {x y : α}
    (same : pre ++ x :: post = pre' ++ y :: post') (earlier : ∀ z ∈ pre, ¬P z) (here : P x)
    (earlier' : ∀ z ∈ pre', ¬P z) (here' : P y) : pre = pre' ∧ x = y ∧ post = post' := by
  induction pre generalizing pre' with
  | nil =>
    cases pre' with
    | nil => exact ⟨rfl, by simpa using same⟩
    | cons z pre' =>
      have first : x = z := (List.cons.inj same).1
      exact absurd here (first ▸ earlier' z (List.mem_cons_self ..))
  | cons z pre ih =>
    cases pre' with
    | nil =>
      have first : z = y := (List.cons.inj same).1
      exact absurd here' (first ▸ earlier z (List.mem_cons_self ..))
    | cons z' pre' =>
      obtain ⟨rfl, rest⟩ := List.cons.inj same
      obtain ⟨rfl, rfl, rfl⟩ := ih rest (fun z member => earlier z (List.mem_cons_of_mem _ member))
        (fun z member => earlier' z (List.mem_cons_of_mem _ member))
      exact ⟨rfl, rfl, rfl⟩

section

variable (fit : BestFit w need b sz before after)
include fit

theorem BestFit.member : (⟨b, sz, false⟩ : Piece) ∈ w.pieces := by
  rw [fit.split]
  simp

theorem BestFit.fits : ¬NoFit w need := fun small =>
  absurd fit.large (Nat.not_le.mpr (small _ fit.member rfl))

theorem BestFit.not_passed : ¬Passed w need :=
  fun passed => fit.fits passed.1

theorem BestFit.size_unique (fit' : BestFit w need b' sz' before' after') : sz = sz' :=
  Nat.le_antisymm (fit.least _ fit'.member rfl fit'.large) (fit'.least _ fit.member rfl fit.large)

/-- Whether a best fit is the last free block does not depend on which one is taken. -/
theorem BestFit.others_unique (fit' : BestFit w need b' sz' before' after')
    (some : freeStarts (before ++ after) ≠ []) : freeStarts (before' ++ after') ≠ [] := by
  have count : ∀ {b sz : Nat} {before after : List Piece},
      w.pieces = before ++ ⟨b, sz, false⟩ :: after →
      (freeStarts w.pieces).length = (freeStarts (before ++ after)).length + 1 := by
    intro b sz before after split
    rw [split, free_starts_append, free_starts_free, free_starts_append, List.length_append,
      List.length_append, List.length_cons, Nat.add_assoc]
  have left := count fit.split
  have right := count fit'.split
  rw [← List.length_pos_iff] at some ⊢
  omega

end

/-- Some block stays free when another one is left or the block is divided. -/
theorem free_starts_carve : freeStarts (carve need b sz before after) ≠ [] ↔
    need + 64 ≤ sz ∨ freeStarts (before ++ after) ≠ [] := by
  by_cases large : need + 64 ≤ sz
  · simp [carve, leftover, large, free_starts_append]
  · simp [carve, leftover, large, free_starts_append]

/-- The requests that are served: the first pool in which the search stops has a block that
is large enough, and a free block is left in it. -/
def Serves (vs : List PoolView) (need : Nat) : Prop :=
  ∃ pre w post b sz before after, vs = pre ++ w :: post ∧ (∀ v ∈ pre, Passed v need) ∧
    BestFit w need b sz before after ∧ (need + 64 ≤ sz ∨ freeStarts (before ++ after) ≠ [])

theorem kmalloc_locked (lock : h.kmemLock = true) :
    kmalloc turns h size = .error (.kpanic "Acquired.") := by
  rw [kmalloc, acquireKmem, if_pos lock]
  rfl

/-- A call that returns a block has been served. -/
theorem KmallocEnds.serves {p : Nat} {h' : KernelHeap}
    (ends : KmallocEnds h vs size (.ok (p, h'))) (some : p ≠ 0) :
    Serves vs (kmallocSizes size).2 := by
  cases ends with
  | allocated split earlier fit left rep changed fresh =>
    exact ⟨_, _, _, _, _, _, _, split, earlier, fit, free_starts_carve.mp left⟩
  | none => exact absurd rfl some

/-- A request that can be served returns a block. -/
theorem KmallocEnds.served {result : Except Fault (Nat × KernelHeap)}
    (ends : KmallocEnds h vs size result) (unlocked : h.kmemLock = false)
    (serves : Serves vs (kmallocSizes size).2) : ∃ p h', result = .ok (p, h') ∧ p ≠ 0 := by
  obtain ⟨pre, w, post, b, sz, before, after, split, earlier, fit, left⟩ := serves
  have member : w ∈ vs := by
    rw [split]
    simp
  -- the search stops at the first pool that it does not pass
  have unique : ∀ {pre' post' : List PoolView} {w' : PoolView}, vs = pre' ++ w' :: post' →
      (∀ v ∈ pre', Passed v (kmallocSizes size).2) → ¬Passed w' (kmallocSizes size).2 → w' = w := by
    intro pre' post' w' split' earlier' stops
    exact (first_unique (split'.symm.trans split) (fun v known => not_not_intro (earlier' v known))
      stops (fun v known => not_not_intro (earlier v known)) fit.not_passed).2.1
  cases ends with
  | allocated => exact ⟨_, _, rfl, Nat.succ_ne_zero _⟩
  | none _ all => exact absurd (all w member) fit.not_passed
  | locked lock =>
    rw [unlocked] at lock
    cases lock
  | noPool empty =>
    rw [empty] at member
    cases member
  | fragmented split' earlier' small plenty =>
    obtain rfl := unique split' earlier' fun passed => absurd plenty (Nat.not_le.mpr passed.2)
    exact absurd small fit.fits
  | lastBlock split' earlier' fit' gone =>
    obtain rfl := unique split' earlier' fit'.not_passed
    refine absurd gone (free_starts_carve.mpr ?_)
    rw [← fit.size_unique fit']
    exact left.imp_right (fit.others_unique fit')

end Served

variable {h' : KernelHeap} {p : Nat} {regions live : List (Nat × Nat)}

/-- What a caller of `kmalloc` counts on: it returns a block, or it returns NULL because
none is large enough and has changed nothing. All locks are free afterwards. -/
def OrderlyCall (h : KernelHeap) (vs : List PoolView) (need : Nat) :
    Except Fault (Nat × KernelHeap) → Prop
  | .ok (p, h') => h'.kmemLock = false ∧ (∀ v ∈ vs, poolField h'.bytes v.pool .lock = 0) ∧
      (p = 0 → h' = h) ∧ (p = 0 ↔ ∀ v ∈ vs, NoFit v need)
  | .error _ => False

theorem HeapRep.locks_free (rep : HeapRep h vs) (member : v ∈ vs) :
    poolField h.bytes v.pool .lock = 0 := (rep.pools v member).state.lock_eq

/-- A call is orderly exactly when the lock is free and the request can be served. -/
theorem HeapRep.orderly_iff (enough : 2 ^ 64 ≤ turns) (rep : HeapRep h vs) (size : Nat) :
    OrderlyCall h vs (kmallocSizes size).2 (kmalloc turns h size) ↔
      h.kmemLock = false ∧ Serves vs (kmallocSizes size).2 := by
  have ends := kmalloc_spec enough rep size
  constructor
  · intro orderly
    have unlocked : h.kmemLock = false := by
      cases lock : h.kmemLock with
      | false => rfl
      | true =>
        rw [kmalloc_locked lock] at orderly
        exact orderly.elim
    refine ⟨unlocked, ?_⟩
    generalize kmalloc turns h size = result at ends orderly
    match result, ends, orderly with
    | .ok (p, h'), ends, orderly =>
      refine ends.serves fun zero => ?_
      -- NULL is returned with the lock held
      subst zero
      cases ends with
      | none => cases orderly.1
  · rintro ⟨unlocked, serves⟩
    obtain ⟨p, h', returns, some⟩ := ends.served unlocked serves
    rw [returns] at ends ⊢
    cases ends with
    | none => exact absurd rfl some
    | @allocated pre post w b sz before after m' split earlier fit left rep' changed fresh =>
      have member : w ∈ vs := by
        rw [split]
        simp
      refine ⟨rfl, fun v known => ?_, fun zero => absurd zero some, fun zero => absurd zero some,
        fun small => absurd (small w member) fit.fits⟩
      rw [split] at known
      simp only [List.mem_append, List.mem_cons] at known
      rcases known with front | rfl | behind
      · exact rep'.locks_free (by simp [front])
      · have here := rep'.locks_free (List.mem_append_right pre (List.mem_cons_self ..))
        exact here
      · exact rep'.locks_free (by simp [behind])

/-- The page of `page_attached`, with its only block. -/
def pageView : PoolView := ⟨4096, 0, [⟨4136, 4056, false⟩]⟩

theorem page_split {pre post : List PoolView} {w : PoolView}
    (split : [pageView] = pre ++ w :: post) : w = pageView := by
  have member : w ∈ [pageView] := by
    rw [split]
    simp
  exact List.mem_singleton.mp member

/-- The block of the page is the only candidate. -/
theorem page_fit {sz : Nat} {before after : List Piece}
    (fit : BestFit pageView need b sz before after) :
    b = 4136 ∧ sz = 4056 ∧ before = [] ∧ after = [] := by
  have split : [(⟨4136, 4056, false⟩ : Piece)] = before ++ ⟨b, sz, false⟩ :: after := fit.split
  obtain ⟨rfl, rest⟩ | ⟨-, none⟩ := List.singleton_eq_append_iff.mp split
  · cases rest
    exact ⟨rfl, rfl, rfl, rfl⟩
  · cases none

theorem page_best_fit (fits : need ≤ 4056) : BestFit pageView need 4136 4056 [] [] := by
  refine ⟨rfl, fits, fun p member _ _ => ?_⟩
  rw [List.mem_singleton.mp member]

/-- The three endings of a first request. -/
theorem page_ends (rep : HeapRep h [pageView]) (unlocked : h.kmemLock = false) (size : Nat) :
    ((kmallocSizes size).2 + 64 ≤ 4056 → ∃ h', kmalloc (2 ^ 64) h size = .ok (4160, h')) ∧
    (4056 < (kmallocSizes size).2 + 64 → (kmallocSizes size).2 ≤ 4056 →
      kmalloc (2 ^ 64) h size = .error .nullPointer) ∧
    (4056 < (kmallocSizes size).2 →
      kmalloc (2 ^ 64) h size = .ok (0, { h with kmemLock := true })) := by
  have ends := kmalloc_spec (Nat.le_refl _) rep size
  generalize kmalloc (2 ^ 64) h size = result at ends
  cases ends with
  | allocated split _ fit left =>
    rw [page_split split] at fit
    obtain ⟨rfl, rfl, rfl, rfl⟩ := page_fit fit
    have room : (kmallocSizes size).2 + 64 ≤ 4056 :=
      (free_starts_carve.mp left).resolve_right (not_not_intro rfl)
    exact ⟨fun _ => ⟨_, rfl⟩, fun little => by omega, fun large => by omega⟩
  | none _ all =>
    have large : 4056 < (kmallocSizes size).2 :=
      (all pageView (List.mem_cons_self ..)).1 _ (List.mem_cons_self ..) rfl
    exact ⟨fun room => by omega, fun _ fits => by omega, fun _ => rfl⟩
  | locked lock =>
    rw [unlocked] at lock
    cases lock
  | noPool empty => cases empty
  | fragmented split _ small plenty =>
    rw [page_split split] at small plenty
    have large : 4056 < (kmallocSizes size).2 := small _ (List.mem_cons_self ..) rfl
    have total : (kmallocSizes size).2 ≤ 4056 := plenty
    omega
  | lastBlock split _ fit gone =>
    rw [page_split split] at fit
    obtain ⟨rfl, rfl, rfl, rfl⟩ := page_fit fit
    have fits := fit.large
    have little : ¬(kmallocSizes size).2 + 64 ≤ 4056 := fun room =>
      free_starts_carve.mpr (.inl room) gone
    exact ⟨fun room => by omega, fun _ _ => rfl, fun large => by omega⟩

/-- In every heap that a history leads to, a call of `kmalloc` is orderly exactly when
`kmem_lock` is free and the request can be served. -/
theorem kmalloc_orderly_iff {turns : Nat} {h : KernelHeap} {regions live : List (Nat × Nat)}
    (enough : 2 ^ 64 ≤ turns) (reach : HeapReachable turns h regions live) :
    (∃ vs, HistoryInv h regions live vs) ∧ ∀ vs, HistoryInv h regions live vs →
      ∀ size < 2 ^ 32, (OrderlyCall h vs (kmallocSizes size).2 (kmalloc turns h size) ↔
        h.kmemLock = false ∧ Serves vs (kmallocSizes size).2) :=
  ⟨reach.inv enough, fun _ inv size _ => inv.heap.orderly_iff enough size⟩

theorem page_history : ∃ h, HeapReachable (2 ^ 64) h [(4096, 4096)] [] ∧
    HistoryInv h [(4096, 4096)] [] [pageView] ∧ h.kmemLock = false := by
  obtain ⟨h, reach, rep, lock⟩ := page_attached
  exact ⟨h, reach, ⟨rep, rfl, .nil, by simp⟩, lock⟩

/-- Requests of a hundred bytes from a page are in order. -/
theorem page_orderly : ∃ h, HeapReachable (2 ^ 64) h [(4096, 4096)] [] ∧
    OrderlyCall h [pageView] (kmallocSizes 100).2 (kmalloc (2 ^ 64) h 100) := by
  obtain ⟨h, reach, inv, lock⟩ := page_history
  have serves : Serves [pageView] (kmallocSizes 100).2 :=
    ⟨[], pageView, [], 4136, 4056, [], [], rfl, by simp, page_best_fit (by decide),
      .inl (by decide)⟩
  exact ⟨h, reach, ((kmalloc_orderly_iff (Nat.le_refl _) reach).2 _ inv 100 (by decide)).mpr
    ⟨lock, serves⟩⟩

/-- A request that takes the only block ends with a NULL pointer, and one that is too large
leaves the lock held. -/
theorem page_disorderly : ∃ h, HeapReachable (2 ^ 64) h [(4096, 4096)] [] ∧
    HeapRep h [pageView] ∧ h.kmemLock = false ∧
    kmalloc (2 ^ 64) h 4000 = .error .nullPointer ∧
    kmalloc (2 ^ 64) h 5000 = .ok (0, { h with kmemLock := true }) ∧
    ¬OrderlyCall h [pageView] (kmallocSizes 4000).2 (kmalloc (2 ^ 64) h 4000) ∧
    ¬OrderlyCall h [pageView] (kmallocSizes 5000).2 (kmalloc (2 ^ 64) h 5000) := by
  obtain ⟨h, reach, inv, lock⟩ := page_history
  have last := (page_ends inv.heap lock 4000).2.1 (by decide) (by decide)
  have null := (page_ends inv.heap lock 5000).2.2 (by decide)
  refine ⟨h, reach, inv.heap, lock, last, null, ?_, ?_⟩
  · rw [last]
    exact id
  · rw [null]
    rintro ⟨held, -⟩
    cases held

section Guard

variable {n : Nat}

/-- A pointer to `size` bytes in a block of `n` bytes at `b`: they lie between the canaries,
which stand where `kfree` looks for them and touch neither the header nor another block. -/
structure Guarded (h : KernelHeap) (vs : List PoolView) (b n p size : Nat) : Prop where
  pointer : p = b + 24
  block : ∃ v ∈ vs, (⟨b, n, true⟩ : Piece) ∈ v.pieces
  sized : blockField h.bytes b .size = n
  beginCanary : load h.bytes (b + 16) 8 = KMEM_BEGIN_CANARY
  endCanary : load h.bytes (b + n - 8) 8 = KMEM_END_CANARY
  inside : Set.Ico p (p + size) ⊆ Set.Ico (b + 24) (b + n - 8)
  within : span (b + 16) 8 ⊆ span b n ∧ span (b + n - 8) 8 ⊆ span b n
  header : Disjoint (span b 16) (span (b + 16) 8) ∧ Disjoint (span b 16) (span (b + n - 8) 8)
  neighbours : ∀ w ∈ vs, ∀ q ∈ w.pieces, q.start ≠ b → Disjoint (span q.start q.size) (span b n)

theorem disjoint_span {a k c l : Nat} (apart : a + k ≤ c ∨ c + l ≤ a) :
    Disjoint (span a k) (span c l) := by
  refine Set.disjoint_left.mpr fun x first second => ?_
  simp only [Set.mem_Ico] at first second
  omega

theorem span_subset {a k c l : Nat} (low : c ≤ a) (high : a + k ≤ c + l) :
    span a k ⊆ span c l := by
  intro x inside
  simp only [Set.mem_Ico] at inside ⊢
  omega

/-- The block of a live pointer. -/
theorem HistoryInv.guarded (inv : HistoryInv h regions live vs) (member : (p, size) ∈ live)
    (bound : size + 48 ≤ 2 ^ 64) : ∃ b n, Guarded h vs b n p size := by
  obtain ⟨v, inV, ⟨b, n, mark⟩, inB, used, pointer, room⟩ := inv.owned _ member
  simp only at used pointer room
  subst used
  have good := inv.heap.pools v inV
  have block := good.state.used _ inB rfl (Set.notMem_empty _)
  refine ⟨b, n, pointer, ⟨v, inV, inB⟩, block.sized, block.beginCanary, block.endCanary, ?_,
    ⟨span_subset (by omega) (by omega), span_subset (by omega) (by omega)⟩,
    ⟨disjoint_span (by omega), disjoint_span (by omega)⟩, fun w inW q inQ other => ?_⟩
  · intro x inside
    simp only [Set.mem_Ico] at inside ⊢
    omega
  · refine Set.disjoint_left.mpr fun x first second => other ?_
    obtain ⟨-, rfl⟩ := inv.heap.piece_unique inW inV inQ inB first second
    rfl

/-- In every history, a pointer that `kmalloc` returns has its bytes between canaries that
stand where `kfree` looks for them; whatever is written there, the pointer can be given
back. -/
theorem kmalloc_payload_guarded {turns size p : Nat} {h h' : KernelHeap}
    {regions live : List (Nat × Nat)} (enough : 2 ^ 64 ≤ turns)
    (reach : HeapReachable turns h regions live) (small : size < 2 ^ 32 - 64)
    (returns : kmalloc turns h size = .ok (p, h')) (some : p ≠ 0) :
    (∃ vs, HistoryInv h' regions ((p, size) :: live) vs) ∧
    (∀ vs, HistoryInv h' regions ((p, size) :: live) vs → ∃ b n, Guarded h' vs b n p size) ∧
    ∀ m, ChangedIn (Set.Ico p (p + size)) h'.bytes m →
      ∃ h'', kfree turns { h' with bytes := m } p = .ok h'' := by
  obtain ⟨vs, inv⟩ := reach.inv enough
  have unlocked : h'.kmemLock = false := by
    have ends := kmalloc_spec enough inv.heap size
    rw [returns] at ends
    cases ends with
    | allocated => rfl
    | none => exact absurd rfl some
  have next := HeapReachable.kmalloc reach returns
  rw [if_neg some] at next
  have alive : (p, size) ∈ (p, size) :: live := List.mem_cons_self ..
  refine ⟨next.inv enough, fun vs' inv' => inv'.guarded alive (by omega), fun m changed => ?_⟩
  obtain ⟨vs', inv'⟩ := next.inv enough
  have mine : Set.Ico p (p + size) ⊆ ownerScope h'.bytes regions ((p, size) :: live) := by
    obtain ⟨b, n, guard⟩ := inv'.guarded alive (by omega)
    intro x inside
    refine .inl ⟨_, alive, ?_⟩
    have sized := guard.sized
    have between := guard.inside inside
    have pointer := guard.pointer
    rw [payload]
    simp only [pointer, Nat.add_sub_cancel, sized, Set.mem_Ico] at between ⊢
    omega
  obtain ⟨h'', freed, -⟩ := (inv'.owner (changed.mono mine)).kfree_returns enough alive unlocked
  exact ⟨h'', freed⟩

/-- A hundred bytes of a page. -/
theorem page_payload_guarded : ∃ h h', HeapReachable (2 ^ 64) h [(4096, 4096)] [] ∧
    kmalloc (2 ^ 64) h 100 = .ok (4160, h') ∧ ∃ vs b n, Guarded h' vs b n 4160 100 := by
  obtain ⟨h, reach, inv, lock⟩ := page_history
  obtain ⟨h', returns⟩ := (page_ends inv.heap lock 100).1 (by decide)
  obtain ⟨⟨vs, inv'⟩, guarded, -⟩ := kmalloc_payload_guarded (Nat.le_refl _) reach
    (by decide : 100 < 2 ^ 32 - 64) returns (by decide)
  exact ⟨h, h', reach, returns, vs, guarded vs inv'⟩

end Guard

/-- What best fit means for a heap with one pool. If a free block is large enough, the call
takes a smallest such block, divides it when the rest is a block of its own, and leaves the
other blocks as they were; otherwise it takes none. -/
def TakesBestFit (turns : Nat) (h : KernelHeap) (v : PoolView) (size : Nat) : Prop :=
  (¬NoFit v (kmallocSizes size).2 → ∃ b sz before after h',
    kmalloc turns h size = .ok (b + 24, h') ∧ BestFit v (kmallocSizes size).2 b sz before after ∧
    HeapRep h' [⟨v.pool, v.next, carve (kmallocSizes size).2 b sz before after⟩]) ∧
  (NoFit v (kmallocSizes size).2 → ∀ p h', kmalloc turns h size = .ok (p, h') →
    p = 0 ∧ HeapRep h' [v])

/-- The requests that a single pool serves. -/
theorem serves_singleton : Serves [v] need ↔ ∃ b sz before after,
    BestFit v need b sz before after ∧ (need + 64 ≤ sz ∨ freeStarts (before ++ after) ≠ []) := by
  constructor
  · rintro ⟨pre, w, post, b, sz, before, after, split, -, fit, left⟩
    have member : w ∈ [v] := by
      rw [split]
      simp
    rw [List.mem_singleton.mp member] at fit
    exact ⟨b, sz, before, after, fit, left⟩
  · rintro ⟨b, sz, before, after, fit, left⟩
    exact ⟨[], v, [], b, sz, before, after, rfl, by simp, fit, left⟩

theorem HeapRep.takes_best_fit_iff (enough : 2 ^ 64 ≤ turns) (rep : HeapRep h [v]) (size : Nat) :
    TakesBestFit turns h v size ↔
      NoFit v (kmallocSizes size).2 ∨ h.kmemLock = false ∧ Serves [v] (kmallocSizes size).2 := by
  have ends := kmalloc_spec enough rep size
  by_cases small : NoFit v (kmallocSizes size).2
  · refine iff_of_true ⟨fun fits => absurd small fits, fun _ p h' returns => ?_⟩ (.inl small)
    rw [returns] at ends
    cases ends with
    | none => exact ⟨rfl, rep.set_lock true⟩
    | @allocated pre post w b sz before after m' split earlier fit =>
      have member : w ∈ [v] := by
        rw [split]
        simp
      exact absurd small (List.mem_singleton.mp member ▸ fit.fits)
  · constructor
    · rintro ⟨takes, -⟩
      obtain ⟨b, sz, before, after, h', returns, -, -⟩ := takes small
      refine .inr ⟨?_, ?_⟩
      · cases lock : h.kmemLock with
        | false => rfl
        | true =>
          rw [kmalloc_locked lock] at returns
          cases returns
      · rw [returns] at ends
        exact ends.serves (Nat.succ_ne_zero _)
    · rintro (none | ⟨unlocked, serves⟩)
      · exact absurd none small
      · refine ⟨fun _ => ?_, fun none => absurd none small⟩
        obtain ⟨p, h', returns, some⟩ := ends.served unlocked serves
        rw [returns] at ends ⊢
        cases ends with
        | none => exact absurd rfl some
        | @allocated pre post w b sz before after m' split earlier fit left rep' =>
          obtain ⟨rfl, rest⟩ | ⟨-, none⟩ := List.singleton_eq_append_iff.mp split
          · cases rest
            exact ⟨b, sz, before, after, _, rfl, fit, rep'⟩
          · cases none

/-- `rb_search_upper` finds a node with the least key from `key` on in every search tree, and
NULL exactly when all keys are smaller. In every history with one pool, `kmalloc` is best
fit for a request exactly when no block is large enough, or `kmem_lock` is free and a free
block is left once the request has been served. -/
theorem kmalloc_best_fit_iff {turns : Nat} {h : KernelHeap} {region : Nat × Nat}
    {live : List (Nat × Nat)} (enough : 2 ^ 64 ≤ turns)
    (reach : HeapReachable turns h [region] live) :
    (∀ (turns key : Nat) (t : RbTree) (s : ColorTree NodePtr), HoldsTree t s →
      s.inorder.Pairwise (fun p q => (t.nodes p).key ≤ (t.nodes q).key) →
      s.inorder.length < turns →
      ∃ node, rbSearchUpper turns t (rootPtr s) key = .ok node ∧
        (node = .null ↔ ∀ p ∈ s.inorder, (t.nodes p).key < key) ∧
        (node ≠ .null → node ∈ s.inorder ∧ key ≤ (t.nodes node).key ∧
          ∀ p ∈ s.inorder, key ≤ (t.nodes p).key → (t.nodes node).key ≤ (t.nodes p).key)) ∧
    (∃ v, HistoryInv h [region] live [v]) ∧
    ∀ v, HistoryInv h [region] live [v] → ∀ size, (TakesBestFit turns h v size ↔
      NoFit v (kmallocSizes size).2 ∨ h.kmemLock = false ∧ ∃ b sz before after,
        BestFit v (kmallocSizes size).2 b sz before after ∧
        ((kmallocSizes size).2 + 64 ≤ sz ∨ freeStarts (before ++ after) ≠ [])) := by
  refine ⟨fun turns key t s holds sorted many => ?_, ?_, fun v inv size => ?_⟩
  · obtain ⟨node, returns, null, found⟩ : ∃ node, rbSearchUpper turns t (rootPtr s) key = .ok node ∧
        LeastUpper t s.inorder .null key node :=
      search_upper_loop turns many .null holds sorted (fun some => absurd rfl some)
    refine ⟨node, returns, ⟨fun none => (null none).2, fun small => ?_⟩, fun some => ?_⟩
    · by_contra some
      obtain ⟨origin, large, -⟩ := found some
      exact absurd (small node (origin.resolve_left some)) large.not_gt
    · obtain ⟨origin, large, least⟩ := found some
      exact ⟨origin.resolve_left some, large, least⟩
  · obtain ⟨vs, inv⟩ := reach.inv enough
    obtain ⟨v, rfl⟩ : ∃ v, vs = [v] := by
      rw [← List.length_eq_one_iff]
      have count := congrArg List.length inv.attached
      simpa using count.symm
    exact ⟨v, inv⟩
  · rw [← serves_singleton]
    exact inv.heap.takes_best_fit_iff enough size

/-- A request of a hundred bytes divides the block of a page. -/
theorem page_takes_best_fit : ∃ h, HeapReachable (2 ^ 64) h [(4096, 4096)] [] ∧
    TakesBestFit (2 ^ 64) h pageView 100 := by
  obtain ⟨h, reach, inv, lock⟩ := page_history
  exact ⟨h, reach, ((kmalloc_best_fit_iff (Nat.le_refl _) reach).2.2 _ inv 100).mpr (.inr
    ⟨lock, 4136, 4056, [], [], page_best_fit (by decide), .inl (by decide)⟩)⟩

/-- The best fit for a request of 4000 bytes is the only block of the page, and the call does
not return it. -/
theorem page_not_best_fit : ∃ h, HeapReachable (2 ^ 64) h [(4096, 4096)] [] ∧
    HistoryInv h [(4096, 4096)] [] [pageView] ∧
    kmalloc (2 ^ 64) h 4000 = .error .nullPointer ∧ ¬TakesBestFit (2 ^ 64) h pageView 4000 := by
  obtain ⟨h, reach, inv, lock⟩ := page_history
  have last := (page_ends inv.heap lock 4000).2.1 (by decide) (by decide)
  refine ⟨h, reach, inv, last, fun takes => ?_⟩
  have fits : ¬NoFit pageView (kmallocSizes 4000).2 := fun small =>
    absurd (small _ (List.mem_cons_self ..) rfl) (by decide)
  obtain ⟨b, sz, before, after, h', returns, -, -⟩ := takes.1 fits
  rw [last] at returns
  cases returns

end Mftt
