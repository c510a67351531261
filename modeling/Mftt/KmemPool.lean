import Mftt.KmemTotals
import Mftt.Tiling

/-!
# The state of a pool

The memory of a pool is tiled by blocks. Between calls every block is either free, and
then one of those in the tree of lists, or in use, and then it has its canaries. Inside
a call a few blocks are neither: they have been taken out of the tree, or their canaries
have been wiped, or their header is yet to be written. Such blocks are in limbo. They
keep their place in the tiling, and nothing is known about their bytes.

Each step of `kmalloc` and `kfree` then moves a block into limbo or out of it, divides
or joins blocks in limbo, or writes bytes of blocks in limbo.
-/

namespace Mftt

open ByteMemory RedBlack Tiling

/-- The fields of a pool other than its tree. -/
structure PoolHeader where
  size : Nat
  next : Nat
  free : Nat
  lock : Nat
  deriving DecidableEq, Repr

/-- The header that the memory holds. -/
def poolHeader (m : Bytes) (pool : Nat) : PoolHeader where
  size := poolField m pool .size
  next := poolField m pool .nextPool
  free := poolField m pool .free
  lock := poolField m pool .lock

/-- The place of a pool and of its blocks. -/
structure PoolShape (pool size : Nat) (ps : List Piece) : Prop where
  valid : pool ≠ 0
  aligned : pool % 16 = 0
  bound : pool + 40 + size ≤ 2 ^ 64
  small : size < 2 ^ 32
  tiles : Tiles 64 (pool + 40) (pool + 40 + size) ps
  starts : ∀ p ∈ ps, p.start % 16 = 8

/-- The bytes of an allocated block between its canaries. -/
def interior (p : Piece) : Set Nat := Set.Ico (p.start + 24) (p.start + p.size - 8)

/-- A block in use. -/
structure UsedBlock (m : Bytes) (pool : Nat) (p : Piece) : Prop where
  cookie : blockField m p.start .cookie = KMEM_COOKIE
  type : blockField m p.start .type = KMEM_TYPE_INUSE
  sized : blockField m p.start .size = p.size
  owner : blockField m p.start .pool = pool
  beginCanary : load m (p.start + 16) 8 = KMEM_BEGIN_CANARY
  endCanary : load m (p.start + p.size - 8) 8 = KMEM_END_CANARY

/-- A pool in memory, with blocks `limbo` whose bytes are anything. -/
structure PoolState (m : Bytes) (pool : Nat) (hd : PoolHeader) (limbo : Set Nat)
    (ps : List Piece) : Prop where
  shape : PoolShape pool hd.size ps
  header : poolHeader m pool = hd
  sizes : ∀ p ∈ ps, p.used = false → blockField m p.start .size = p.size
  used : ∀ p ∈ ps, p.used = true → p.start ∉ limbo → UsedBlock m pool p
  index : ∃ s rest, FreeRep m pool (freeStarts ps) s rest

variable {pool size b sz sz' : Nat} {ps before after : List Piece} {p : Piece}

variable {x : Nat} {qs : List Piece}

section Shape

variable {q : Piece} {mark : Bool}

section

variable (shape : PoolShape pool size ps)
include shape

theorem PoolShape.within (member : p ∈ ps) :
    pool + 40 ≤ p.start ∧ p.start + p.size ≤ pool + 40 + size ∧ 64 ≤ p.size :=
  shape.tiles.within member

/-- A block is known by any of its bytes. -/
theorem PoolShape.unique (left : p ∈ ps) (right : q ∈ ps) (inLeft : x ∈ span p.start p.size)
    (inRight : x ∈ span q.start q.size) : p = q :=
  shape.tiles.unique left right inLeft inRight

theorem PoolShape.start_unique (left : p ∈ ps) (right : q ∈ ps) (same : p.start = q.start) :
    p = q :=
  shape.tiles.start_unique (by decide) left right same

/-- The blocks of a pool lie apart. -/
theorem PoolShape.spread : Spread pool {x | x ∈ ps.map Piece.start} where
  valid := shape.valid
  behind b member := by
    obtain ⟨p, inside, rfl⟩ := List.mem_map.mp member
    exact (shape.within inside).1
  bound b member := by
    obtain ⟨p, inside, rfl⟩ := List.mem_map.mp member
    have place := shape.within inside
    have := shape.bound
    omega
  even b member := by
    obtain ⟨p, inside, rfl⟩ := List.mem_map.mp member
    have := shape.starts p inside
    omega
  apart a left b right other := by
    obtain ⟨p, inLeft, rfl⟩ := List.mem_map.mp left
    obtain ⟨q, inRight, rfl⟩ := List.mem_map.mp right
    have apart := shape.tiles.apart inLeft inRight (by rintro rfl; exact other rfl)
    have first := shape.within inLeft
    have second := shape.within inRight
    unfold Apart
    omega

end

theorem free_subset (ps : List Piece) : ∀ x ∈ freeStarts ps, x ∈ {x | x ∈ ps.map Piece.start} := by
  intro x member
  obtain ⟨p, inside, -, rfl⟩ := mem_free_starts.mp member
  exact List.mem_map.mpr ⟨p, inside, rfl⟩

theorem PoolShape.few (shape : PoolShape pool size ps) : (freeStarts ps).length < 2 ^ 26 := by
  have fewer : (freeStarts ps).length ≤ ps.length := by
    simp only [freeStarts, List.length_map]
    exact List.length_filter_le _ ps
  have count := shape.tiles.length_le
  have small := shape.small
  omega

theorem PoolShape.free_total_le (shape : PoolShape pool size ps) : freeTotal ps ≤ size := by
  have part := Tiling.free_total_le ps
  have total := shape.tiles.total
  omega

/-- Another way to cut a pool into blocks. -/
theorem PoolShape.retile (shape : PoolShape pool size ps)
    (tiles : Tiles 64 (pool + 40) (pool + 40 + size) qs) (starts : ∀ q ∈ qs, q.start % 16 = 8) :
    PoolShape pool size qs :=
  ⟨shape.valid, shape.aligned, shape.bound, shape.small, tiles, starts⟩

theorem PoolShape.remark (shape : PoolShape pool size (before ++ ⟨b, sz, mark⟩ :: after))
    (mark' : Bool) : PoolShape pool size (before ++ ⟨b, sz, mark'⟩ :: after) := by
  apply shape.retile (shape.tiles.remark mark')
  intro q member
  have known := shape.starts
  simp only [List.mem_append, List.mem_cons] at member known
  rcases member with first | rfl | last
  · exact known q (.inl first)
  · exact known ⟨b, sz, mark⟩ (.inr (.inl rfl))
  · exact known q (.inr (.inr last))

end Shape

variable {m m' : Bytes} {hd : PoolHeader} {limbo limbo' : Set Nat}

section Frame

/-- The bytes that the state of a pool does not depend on: those outside it, those of
blocks in limbo, and those between the canaries of blocks in use. -/
def slack (pool size : Nat) (limbo : Set Nat) (ps : List Piece) : Set Nat :=
  {x | x ∉ span pool (40 + size) ∨
    ∃ p ∈ ps, p.used = true ∧ (p.start ∈ limbo ∧ x ∈ span p.start p.size ∨ x ∈ interior p)}

theorem interior_subset (p : Piece) : interior p ⊆ span p.start p.size := by
  intro x inside
  simp only [interior, Set.mem_Ico] at inside ⊢
  omega

/-- The bytes of a block that may be written. -/
theorem PoolShape.slack_block (shape : PoolShape pool size ps) (member : p ∈ ps)
    (here : x ∈ span p.start p.size) (free : x ∈ slack pool size limbo ps) :
    p.used = true ∧ (p.start ∈ limbo ∨ x ∈ interior p) := by
  rcases free with outside | ⟨q, inside, used, which⟩
  · have place := shape.within member
    simp only [Set.mem_Ico] at here outside
    omega
  · have mine : x ∈ span q.start q.size := by
      rcases which with ⟨-, whole⟩ | part
      · exact whole
      · exact interior_subset q part
    obtain rfl := shape.unique member inside here mine
    exact ⟨used, which.imp And.left id⟩

theorem PoolShape.slack_header (shape : PoolShape pool size ps) (here : x ∈ span pool 40) :
    x ∉ slack pool size limbo ps := by
  rintro (outside | ⟨q, inside, -, which⟩)
  · simp only [Set.mem_Ico] at here outside
    omega
  · have mine : x ∈ span q.start q.size := by
      rcases which with ⟨-, whole⟩ | part
      · exact whole
      · exact interior_subset q part
    have place := shape.within inside
    simp only [Set.mem_Ico] at here mine
    omega

/-- Fields of a pool whose header has not been written. -/
theorem pool_field_congr (same : ∀ x ∈ span pool 40, m' x = m x) (f : PoolField) :
    poolField m' pool f = poolField m pool f := by
  apply load_congr
  intro x inside
  have := f.inside
  apply same
  simp only [Set.mem_Ico] at inside ⊢
  omega

theorem pool_header_congr (same : ∀ x ∈ span pool 40, m' x = m x) :
    poolHeader m' pool = poolHeader m pool := by
  simp only [poolHeader, pool_field_congr same]

/-- A block in use depends on its header and its canaries. -/
theorem UsedBlock.congr (block : UsedBlock m pool p) (large : 64 ≤ p.size)
    (same : ∀ x ∈ span p.start p.size, x ∉ interior p → m' x = m x) : UsedBlock m' pool p := by
  have kept : ∀ a n, p.start ≤ a → a + n ≤ p.start + 24 ∨ p.start + p.size - 8 ≤ a →
      a + n ≤ p.start + p.size → load m' a n = load m a n := by
    intro a n low part high
    apply load_congr
    intro x inside
    simp only [Set.mem_Ico] at inside
    apply same
    · simp only [Set.mem_Ico]
      omega
    · simp only [interior, Set.mem_Ico]
      omega
  have front : ∀ f : BlockField, f.offset + f.width ≤ 16 →
      blockField m' p.start f = blockField m p.start f :=
    fun f early => kept _ _ (by omega) (by omega) (by omega)
  constructor
  · exact (front _ (by decide)).trans block.cookie
  · exact (front _ (by decide)).trans block.type
  · exact (front _ (by decide)).trans block.sized
  · exact (front _ (by decide)).trans block.owner
  · exact (kept _ _ (by omega) (by omega) (by omega)).trans block.beginCanary
  · exact (kept _ _ (by omega) (by omega) (by omega)).trans block.endCanary

section

variable (state : PoolState m pool hd limbo ps)
include state

/-- The state depends on the header of the pool, on those of free blocks, and on the blocks in
use outside their payloads. -/
theorem PoolState.congr (header : ∀ x ∈ span pool 40, m' x = m x)
    (free : ∀ p ∈ ps, p.used = false → SameBlock m m' p.start)
    (used : ∀ p ∈ ps, p.used = true → p.start ∉ limbo →
      ∀ x ∈ span p.start p.size, x ∉ interior p → m' x = m x) :
    PoolState m' pool hd limbo ps := by
  constructor
  · exact state.shape
  · rw [pool_header_congr header, state.header]
  · intro p member unused
    rw [(free p member unused).field, state.sizes p member unused]
  · intro p member inUse outside
    exact (state.used p member inUse outside).congr (state.shape.within member).2.2
      (used p member inUse outside)
  · obtain ⟨s, rest, rep⟩ := state.index
    refine ⟨s, rest, rep.congr (fun b member => ?_) (pool_field_congr header _)⟩
    obtain ⟨p, inside, unused, rfl⟩ := mem_free_starts.mp member
    exact free p inside unused

theorem PoolState.frame (changed : ChangedIn (slack pool hd.size limbo ps) m m') :
    PoolState m' pool hd limbo ps := by
  refine state.congr (fun x inside => changed x (state.shape.slack_header inside)) ?_ ?_
  · intro p member unused x inside
    apply changed
    intro spare
    have place := state.shape.within member
    have here : x ∈ span p.start p.size := by
      simp only [Set.mem_Ico] at inside ⊢
      omega
    have used := (state.shape.slack_block member here spare).1
    rw [unused] at used
    cases used
  · intro p member used outside x here border
    apply changed
    intro spare
    rcases (state.shape.slack_block member here spare).2 with inLimbo | inner
    · exact outside inLimbo
    · exact border inner

/-- More blocks may be put into limbo at any time. -/
theorem PoolState.mono (wider : limbo ⊆ limbo') : PoolState m pool hd limbo' ps where
  shape := state.shape
  header := state.header
  sizes := state.sizes
  used p member inUse outside := state.used p member inUse (fun inside => outside (wider inside))
  index := state.index

/-- Blocks leave limbo once they are as blocks in use should be. -/
theorem PoolState.settle
    (good : ∀ p ∈ ps, p.used = true → p.start ∈ limbo → p.start ∉ limbo' → UsedBlock m pool p) :
    PoolState m pool hd limbo' ps where
  shape := state.shape
  header := state.header
  sizes := state.sizes
  used p member inUse outside := by
    by_cases inside : p.start ∈ limbo
    · exact good p member inUse inside outside
    · exact state.used p member inUse inside
  index := state.index

end

/-- Bytes of one block in limbo. -/
theorem PoolState.limbo_subset (member : p ∈ ps) (used : p.used = true) (inside : p.start ∈ limbo) :
    span p.start p.size ⊆ slack pool size limbo ps :=
  fun _ here => .inr ⟨p, member, used, .inl ⟨inside, here⟩⟩

/-- The fields of the header are written one by one. -/
theorem PoolState.set_field (state : PoolState m pool hd limbo ps) (f : PoolField) (value : Nat)
    (other : f ≠ .size ∧ f ≠ .freeTree) :
    PoolState (setPoolField m pool f value) pool (poolHeader (setPoolField m pool f value) pool)
      limbo ps := by
  have sizeKept : (poolHeader (setPoolField m pool f value) pool).size = hd.size := by
    rw [← state.header]
    simp only [poolHeader, pool_set_same, if_neg (Ne.symm other.1)]
  have changed := changed_store m (pool + f.offset) f.width value
  have same : ∀ x, pool + 40 ≤ x → setPoolField m pool f value x = m x := by
    intro x behind
    apply changed
    have := f.inside
    simp only [Set.mem_Ico]
    omega
  constructor
  · rw [sizeKept]
    exact state.shape
  · rfl
  · intro p member unused
    rw [block_set_pool f _ value (state.shape.within member).1, state.sizes p member unused]
  · intro p member used outside
    apply (state.used p member used outside).congr (state.shape.within member).2.2
    intro x here _
    apply same
    have place := state.shape.within member
    simp only [Set.mem_Ico] at here
    omega
  · obtain ⟨s, rest, rep⟩ := state.index
    refine ⟨s, rest, rep.congr (fun b member x inside => same x ?_) ?_⟩
    · have behind := rep.spread.behind b member
      simp only [Set.mem_Ico] at inside
      omega
    · rw [pool_set_same, if_neg (Ne.symm other.2)]

end Frame

section Steps

variable {turns : Nat}

/-- Another division of the bytes in limbo. -/
theorem PoolState.retile (state : PoolState m pool hd limbo ps) (shape : PoolShape pool hd.size qs)
    (wider : limbo ⊆ limbo') (known : ∀ q ∈ qs, q ∈ ps ∨ (q.used = true ∧ q.start ∈ limbo'))
    (free : freeStarts qs = freeStarts ps) : PoolState m pool hd limbo' qs where
  shape := shape
  header := state.header
  sizes q member unused := by
    rcases known q member with old | ⟨used, -⟩
    · exact state.sizes q old unused
    · rw [unused] at used
      cases used
  used q member used outside := by
    rcases known q member with old | ⟨-, inside⟩
    · exact state.used q old used (fun inside => outside (wider inside))
    · exact absurd inside outside
  index := by
    rw [free]
    exact state.index

/-- A block in limbo is divided. -/
theorem PoolState.cut (state : PoolState m pool hd limbo (before ++ ⟨b, sz, true⟩ :: after))
    (inside : b ∈ limbo) (first : 64 ≤ sz') (second : sz' + 64 ≤ sz) (aligned : sz' % 16 = 0) :
    PoolState m pool hd (insert (b + sz') limbo)
      (before ++ ⟨b, sz', true⟩ :: ⟨b + sz', sz - sz', true⟩ :: after) := by
  have starts := state.shape.starts
  simp only [List.mem_append, List.mem_cons] at starts
  have here : b % 16 = 8 := starts ⟨b, sz, true⟩ (.inr (.inl rfl))
  refine state.retile (state.shape.retile (state.shape.tiles.divide first second true) ?_)
    (Set.subset_insert ..) ?_ (by simp [free_starts_append])
  · intro q member
    simp only [List.mem_append, List.mem_cons] at member
    rcases member with front | rfl | rfl | behind
    · exact starts q (.inl front)
    · exact here
    · simp only
      omega
    · exact starts q (.inr (.inr behind))
  · intro q member
    simp only [List.mem_append, List.mem_cons] at member ⊢
    rcases member with front | rfl | rfl | behind
    · exact .inl (.inl front)
    · exact .inr ⟨rfl, .inr inside⟩
    · exact .inr ⟨rfl, .inl rfl⟩
    · exact .inl (.inr (.inr behind))

/-- Two blocks in limbo are joined. -/
theorem PoolState.join {c : Nat}
    (state : PoolState m pool hd limbo (before ++ ⟨b, sz, true⟩ :: ⟨c, sz', true⟩ :: after))
    (inside : b ∈ limbo) :
    PoolState m pool hd limbo (before ++ ⟨b, sz + sz', true⟩ :: after) := by
  have starts := state.shape.starts
  simp only [List.mem_append, List.mem_cons] at starts
  refine state.retile (state.shape.retile state.shape.tiles.join ?_) subset_rfl ?_
    (by simp [free_starts_append])
  · intro q member
    simp only [List.mem_append, List.mem_cons] at member
    rcases member with front | rfl | behind
    · exact starts q (.inl front)
    · exact starts ⟨b, sz, true⟩ (.inr (.inl rfl))
    · exact starts q (.inr (.inr (.inr behind)))
  · intro q member
    simp only [List.mem_append, List.mem_cons] at member ⊢
    rcases member with front | rfl | behind
    · exact .inl (.inl front)
    · exact .inr ⟨rfl, inside⟩
    · exact .inl (.inr (.inr (.inr behind)))

variable {fs : List Nat}

section

variable (shape : PoolShape pool size ps) (free : ∀ f ∈ fs, f ∈ freeStarts ps)
include shape free

/-- The functions on the tree of lists write no block in use. -/
theorem PoolShape.free_scope_used (member : p ∈ ps) (used : p.used = true)
    (here : x ∈ span p.start p.size) : x ∉ freeScope pool fs := by
  have place := shape.within member
  rintro (root | inside)
  · simp only [Set.mem_Ico] at here root
    omega
  · simp only [Set.mem_iUnion] at inside
    obtain ⟨f, known, within⟩ := inside
    obtain ⟨q, other, unused, rfl⟩ := mem_free_starts.mp (free f known)
    have large := shape.within other
    have there : x ∈ span q.start q.size := by
      simp only [Set.mem_Ico] at within ⊢
      omega
    obtain rfl := shape.unique member other here there
    rw [unused] at used
    cases used

/-- Of a free block they write the header only. -/
theorem PoolShape.free_scope_tail (member : p ∈ ps) (low : p.start + 64 ≤ x)
    (high : x < p.start + p.size) : x ∉ freeScope pool fs := by
  have place := shape.within member
  rintro (root | inside)
  · simp only [Set.mem_Ico] at root
    omega
  · simp only [Set.mem_iUnion] at inside
    obtain ⟨f, known, within⟩ := inside
    obtain ⟨q, other, -, rfl⟩ := mem_free_starts.mp (free f known)
    have large := shape.within other
    simp only [Set.mem_Ico] at within
    obtain rfl : p = q := by
      apply shape.unique (x := x) member other
      · simp only [Set.mem_Ico]
        omega
      · simp only [Set.mem_Ico]
        omega
    omega

/-- They write the root in the header of the pool, and nothing else there. -/
theorem PoolShape.free_scope_header (changed : ChangedIn (freeScope pool fs) m m') :
    poolHeader m' pool = poolHeader m pool := by
  have kept : ∀ f : PoolField, f ≠ .freeTree → poolField m' pool f = poolField m pool f := by
    intro f other
    apply changed.load
    intro x here
    have := f.inside
    have fields : f.offset + f.width ≤ 24 ∨ 24 + 8 ≤ f.offset := PoolField.apart other
    simp only [Set.mem_Ico] at here
    rintro (root | inside)
    · simp only [Set.mem_Ico] at root
      omega
    · simp only [Set.mem_iUnion] at inside
      obtain ⟨b, known, low, high⟩ := inside
      obtain ⟨q, other, -, rfl⟩ := mem_free_starts.mp (free b known)
      have place := shape.within other
      omega
  simp only [poolHeader, kept .size (by decide), kept .nextPool (by decide), kept .free (by decide),
    kept .lock (by decide)]

theorem PoolShape.free_scope_inside : freeScope pool fs ⊆ span pool (40 + size) := by
  rintro x (root | inside)
  · simp only [Set.mem_Ico] at root ⊢
    omega
  · simp only [Set.mem_iUnion] at inside
    obtain ⟨b, known, low, high⟩ := inside
    obtain ⟨q, other, -, rfl⟩ := mem_free_starts.mp (free b known)
    have place := shape.within other
    simp only [Set.mem_Ico]
    omega

end

/-- A free block is taken out of the tree of lists, into limbo. -/
theorem PoolState.take (state : PoolState m pool hd limbo (before ++ ⟨b, sz, false⟩ :: after))
    (enough : 2 ^ 32 ≤ turns) :
    ∃ m', removeFromPool turns m b = .ok m' ∧
      PoolState m' pool hd (insert b limbo) (before ++ ⟨b, sz, true⟩ :: after) ∧
      HeaderKept m m' b ∧
      ChangedIn (freeScope pool (freeStarts (before ++ ⟨b, sz, false⟩ :: after))) m m' ∧
      ((nodeAt m (nodeOf b)).L = .null → ∀ x ∈ span (b + 32) 32, m' x = m x) := by
  obtain ⟨s, rest, rep⟩ := state.index
  have here : (⟨b, sz, false⟩ : Piece) ∈ before ++ ⟨b, sz, false⟩ :: after := by simp
  have member : b ∈ freeStarts (before ++ ⟨b, sz, false⟩ :: after) :=
    mem_free_starts.mpr ⟨_, here, rfl, rfl⟩
  have few := state.shape.few
  have sized : blockField m b .size = sz := state.sizes _ here rfl
  have large : 64 ≤ sz := (state.shape.within here).2.2
  obtain ⟨m', returns, removal⟩ := remove_from_pool_spec turns rep (by omega) member (by omega)
  have shape := state.shape.remark true
  have others : ∀ q ∈ before ++ ⟨b, sz, true⟩ :: after,
      q ∈ before ++ ⟨b, sz, false⟩ :: after ∨ q = ⟨b, sz, true⟩ := by
    intro q inside
    simp only [List.mem_append, List.mem_cons] at inside ⊢
    tauto
  refine ⟨m', returns, ⟨shape, ?_, ?_, ?_, ?_⟩, removal.header b member, removal.changed,
    removal.node⟩
  · rw [state.shape.free_scope_header (fun _ inside => inside) removal.changed, state.header]
  · intro q inside unused
    rcases others q inside with old | rfl
    · have free := mem_free_starts.mpr ⟨q, old, unused, rfl⟩
      rw [(removal.header q.start free).sized, state.sizes q old unused]
    · cases unused
  · intro q inside used outside
    rcases others q inside with old | rfl
    · have block := state.used q old used (fun known => outside (.inr known))
      apply block.congr (state.shape.within old).2.2
      intro x within _
      apply removal.changed
      exact state.shape.free_scope_used (fun _ inside => inside) old used within
    · exact absurd (.inl rfl) outside
  · obtain ⟨s', rest', rep'⟩ := removal.rep
    have distinct := rep.distinct
    have split : (freeStarts (before ++ ⟨b, sz, false⟩ :: after)).erase b =
        freeStarts (before ++ ⟨b, sz, true⟩ :: after) := by
      rw [free_starts_append, free_starts_free] at distinct ⊢
      have absent := (List.nodup_cons.mp (List.nodup_middle.mp distinct)).1
      rw [free_starts_append, free_starts_used,
        List.erase_append_right _ (fun inside => absent (List.mem_append_left _ inside)),
        List.erase_cons_head]
    rw [split] at rep'
    exact ⟨s', rest', rep'⟩

/-- A block in limbo is put back into the tree of lists. -/
theorem PoolState.give (state : PoolState m pool hd limbo (before ++ ⟨b, sz, true⟩ :: after))
    (enough : 2 ^ 32 ≤ turns) :
    ∃ m', insertIntoPool turns m pool b sz = .ok m' ∧
      PoolState m' pool hd limbo (before ++ ⟨b, sz, false⟩ :: after) ∧
      ChangedIn (freeScope pool (freeStarts (before ++ ⟨b, sz, false⟩ :: after))) m m' := by
  obtain ⟨s, rest, rep⟩ := state.index
  have here : (⟨b, sz, true⟩ : Piece) ∈ before ++ ⟨b, sz, true⟩ :: after := by simp
  have shape := state.shape.remark false
  have few := state.shape.few
  have place := state.shape.within here
  have small := state.shape.small
  have bound := state.shape.bound
  have fresh : b ∉ freeStarts (before ++ ⟨b, sz, true⟩ :: after) := by
    intro inside
    obtain ⟨q, known, unused, start⟩ := mem_free_starts.mp inside
    obtain rfl := state.shape.start_unique known here start
    cases unused
  have order : (b :: freeStarts (before ++ ⟨b, sz, true⟩ :: after)).Perm
      (freeStarts (before ++ ⟨b, sz, false⟩ :: after)) := by
    rw [free_starts_append, free_starts_append]
    exact List.perm_middle.symm
  have spread : Spread pool {x | x ∈ b :: freeStarts (before ++ ⟨b, sz, true⟩ :: after)} :=
    shape.spread.mono fun x inside => free_subset _ x (order.mem_iff.mp inside)
  obtain ⟨m', s', rest', returns, rep', sized, sizes, changed⟩ :=
    insert_into_pool_spec turns rep (by omega) spread fresh (by omega) place.2.2 (by omega)
  have free : ∀ f ∈ b :: freeStarts (before ++ ⟨b, sz, true⟩ :: after),
      f ∈ freeStarts (before ++ ⟨b, sz, false⟩ :: after) := fun f => order.mem_iff.mp
  have others : ∀ q ∈ before ++ ⟨b, sz, false⟩ :: after,
      q ∈ before ++ ⟨b, sz, true⟩ :: after ∨ q = ⟨b, sz, false⟩ := by
    intro q inside
    simp only [List.mem_append, List.mem_cons] at inside ⊢
    tauto
  refine ⟨m', returns, ⟨shape, ?_, ?_, ?_, s', rest', rep'.perm order⟩, ?_⟩
  · rw [shape.free_scope_header free changed, state.header]
  · intro q inside unused
    rcases others q inside with old | rfl
    · rw [sizes q.start (mem_free_starts.mpr ⟨q, old, unused, rfl⟩), state.sizes q old unused]
    · exact sized
  · intro q inside used outside
    rcases others q inside with old | rfl
    · apply (state.used q old used outside).congr (state.shape.within old).2.2
      intro x within _
      exact changed x (shape.free_scope_used free inside used within)
    · cases used
  · refine changed.mono (Set.union_subset_union_right _ ?_)
    exact Set.biUnion_subset_biUnion_left free

/-- The only block of a pool is put into the tree of lists. -/
theorem PoolState.give_alone (state : PoolState m pool hd limbo [⟨b, sz, true⟩])
    (enough : 2 ^ 32 ≤ turns) :
    ∃ m', insertIntoPool turns m pool b sz = .ok m' ∧ PoolState m' pool hd limbo [⟨b, sz, false⟩] ∧
      ChangedIn (freeScope pool (freeStarts [⟨b, sz, false⟩])) m m' := by
  change PoolState m pool hd limbo ([] ++ ⟨b, sz, true⟩ :: []) at state
  exact state.give enough

end Steps

end Mftt
